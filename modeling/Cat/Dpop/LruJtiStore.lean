import Cat.Dpop.Proof
import Cat.Dpop.StrictRuns
import Cat.Lib.Lru

/-!
# The store that evicts

`LruJtiStore` keeps the most recent identifiers and counts an eviction as premature while the
evicted one is younger than the freshness window. A proof is still fresh at the age of the
window itself, so an eviction in that very second is of a fresh proof and is not counted. Where
no such eviction happens the counter tells the truth: while it is zero, nothing was accepted
twice that was still fresh.

The counter is the canary that the source offers to operators of a store that may forget. What
it is to say is a statement about runs: an accepted proof that is still fresh is retained, or an
eviction of a fresh one has been counted. That is the invariant, and a step that evicts either
counts or evicts something that is not fresh, the second at the boundary excepted.

Ages are differences of machine integers in the source, with a check for overflow, and so they
are here.
-/

set_option autoImplicit false

namespace Cat

open Cbor

def minJtiCacheSize : Nat := 1000
def maxJtiCacheSize : Nat := 10000000

/-- The hasher is a function of the bytes it is fed, one piece after the other. -/
structure LruJtiStore where
  shardCount : Nat
  shardCount_pos : 0 < shardCount
  shards : Fin shardCount → Lru String Int64
  hash : Bytes → UInt64
  prematureEvictions : Nat
  freshnessWindowSeconds : Int64

/-- One call, and what the clock says if it is asked. -/
structure TimedInsert where
  now : ClockReading
  key : String
  iat : Int64

/-- Calls one after the other. The clock does not run back. -/
structure InsertRun where
  calls : List TimedInsert
  ordered : calls.Pairwise fun a b => a.now.secs.toInt ≤ b.now.secs.toInt

namespace LruJtiStore

/-- The shards share the capacity, the first ones taking one more until it is used up. -/
def withShardsAndWindow (hash : Bytes → UInt64) (capacity shards : Nat)
    (freshnessWindowSeconds : Int64) : LruJtiStore :=
  let requestedCapacity := min (max capacity minJtiCacheSize) maxJtiCacheSize
  let shardCount := min (max shards 1) requestedCapacity
  let base := requestedCapacity / shardCount
  let remainder := requestedCapacity % shardCount
  { shardCount
    shardCount_pos := Nat.lt_min.mpr ⟨Nat.le_max_right shards 1,
      Nat.lt_min.mpr ⟨Nat.lt_of_lt_of_le (Nat.zero_lt_succ 999) (Nat.le_max_right capacity 1000),
        Nat.zero_lt_succ 9999999⟩⟩
    shards := fun i => .empty (max (base + if i.val < remainder then 1 else 0) 1)
    hash
    prematureEvictions := 0
    freshnessWindowSeconds }

/-- The bytes that pick a shard: the issuer, a separator, the key. -/
def shardBytes (key : String) : Bytes :=
  utf8 (String.ofList (key.toList.takeWhile (· != ':'))) ++ 0xff :: utf8 key

variable (s : LruJtiStore) (c : TimedInsert)

def shardFor (key : String) : Fin s.shardCount :=
  ⟨(s.hash (shardBytes key)).toNat % s.shardCount, Nat.mod_lt _ s.shardCount_pos⟩

/-- Whether an evicted entry counts. -/
def premature (now : ClockReading) (evicted : String × Int64) : Bool :=
  now.secs.saturatingSub evicted.2 < s.freshnessWindowSeconds

def checkAndInsert : Except CatError Unit × LruJtiStore :=
  if (utf8 c.key).length > maxJtiLengthBytes then
    (.error (.dpopValidationFailed s!"JTI exceeds {maxJtiLengthBytes} byte cap"), s)
  else if (s.shards (s.shardFor c.key)).contains c.key then (.error .replayAttackDetected, s)
  else
    let (evicted, shard) := (s.shards (s.shardFor c.key)).push c.key c.iat
    (.ok (), { s with
      shards := Function.update s.shards (s.shardFor c.key) shard
      prematureEvictions :=
        if evicted.any (s.premature c.now) then s.prematureEvictions + 1
        else s.prematureEvictions })

/-- The store after a run. -/
def after (calls : List TimedInsert) : LruJtiStore :=
  calls.foldl (fun s c => (s.checkAndInsert c).2) s

/-- The entry that a call drives out. -/
def evicts : Option (String × Int64) :=
  if (utf8 c.key).length > maxJtiLengthBytes then none
  else if (s.shards (s.shardFor c.key)).contains c.key then none
  else ((s.shards (s.shardFor c.key)).push c.key c.iat).1

/-- The call drives an entry out that is still fresh and exactly as old as the window. -/
def EvictsAtWindow : Prop :=
  ∃ e ∈ s.evicts c, c.now.secs.toInt - e.2.toInt = s.freshnessWindowSeconds.toInt ∧
    -5 ≤ s.freshnessWindowSeconds.toInt

/-- If the call drives out the identifier of a proof that is still fresh, it is counted. -/
def CountsFresh : Prop :=
  ∀ e ∈ s.evicts c, ∀ p : DpopPayload, p.iat = e.2 →
    p.isFresh c.now.secs s.freshnessWindowSeconds = true →
    (s.checkAndInsert c).2.prematureEvictions = s.prematureEvictions + 1

def Holds (key : String) (iat : Int64) : Prop := (key, iat) ∈ (s.shards (s.shardFor key)).entries

/-- The store with an entry more in its shard, and one fewer if it was full. -/
def record : LruJtiStore :=
  { s with
    shards := Function.update s.shards (s.shardFor c.key)
      ((s.shards (s.shardFor c.key)).push c.key c.iat).2
    prematureEvictions :=
      if (s.evicts c).any (s.premature c.now) then s.prematureEvictions + 1
      else s.prematureEvictions }

variable {s c}

/-! ## One call -/

/-- A call is refused and changes nothing, or puts a key that was not there into its shard. -/
theorem checkAndInsert_cases (s : LruJtiStore) (c : TimedInsert) :
    (∃ e, s.checkAndInsert c = (.error e, s) ∧ s.evicts c = none) ∨
      s.checkAndInsert c = (.ok (), s.record c) ∧
        (s.shards (s.shardFor c.key)).contains c.key = false ∧
        s.evicts c = ((s.shards (s.shardFor c.key)).push c.key c.iat).1 := by
  unfold checkAndInsert record evicts
  by_cases hlong : (utf8 c.key).length > maxJtiLengthBytes
  · rw [if_pos hlong, if_pos hlong]
    exact .inl ⟨_, rfl, rfl⟩
  · rw [if_neg hlong, if_neg hlong]
    cases hcontains : (s.shards (s.shardFor c.key)).contains c.key with
    | true => exact .inl ⟨_, rfl, rfl⟩
    | false => exact .inr ⟨rfl, rfl, rfl⟩

/-- An entry counts while it is younger than the window. -/
theorem premature_iff {now : ClockReading} {e : String × Int64} :
    s.premature now e = true ↔
      now.secs.toInt - e.2.toInt < s.freshnessWindowSeconds.toInt := by
  have hnow := now.nonneg
  have hiat := e.2.toInt_lt
  unfold premature
  rw [decide_eq_true_iff, Int64.lt_iff_toInt_lt, Int64.saturatingSub,
    Int64.clampInt_lt_of_le (by omega)]

/-- The counter goes up by one for an evicted entry that counts, and not otherwise. -/
theorem checkAndInsert_counter :
    (s.checkAndInsert c).2.prematureEvictions =
      if (s.evicts c).any (s.premature c.now) then s.prematureEvictions + 1
      else s.prematureEvictions := by
  cases s.checkAndInsert_cases c with
  | inl hrefused =>
    obtain ⟨e, heq, hnone⟩ := hrefused
    rw [heq, hnone]
    rfl
  | inr haccepted =>
    rw [haccepted.1]
    rfl

theorem checkAndInsert_window :
    (s.checkAndInsert c).2.freshnessWindowSeconds = s.freshnessWindowSeconds := by
  cases s.checkAndInsert_cases c with
  | inl hrefused =>
    obtain ⟨e, heq, -⟩ := hrefused
    rw [heq]
  | inr haccepted =>
    rw [haccepted.1]
    rfl

/-- **Fresh evictions are counted, but for those at the age of the window.** -/
theorem countsFresh_iff : s.CountsFresh c ↔ ¬s.EvictsAtWindow c := by
  constructor
  · intro hcounts hat
    obtain ⟨e, he, hage, hwindow⟩ := hat
    -- a proof as old as the window is still fresh, and the counter asks for a younger one
    have hlo := s.freshnessWindowSeconds.le_toInt
    have hhi := s.freshnessWindowSeconds.toInt_lt
    have hcount := hcounts e he ⟨none, e.2, .newMoqt .subscribe [] [], none, none⟩ rfl
      (DpopPayload.isFresh_iff.mpr (by
        dsimp only
        omega))
    have hnot : ¬(s.evicts c).any (s.premature c.now) = true := by
      rw [Option.mem_def.mp he]
      show ¬s.premature c.now e = true
      rw [premature_iff]
      omega
    rw [checkAndInsert_counter, if_neg hnot] at hcount
    omega
  · intro hat e he p hp hfresh
    have hage := DpopPayload.isFresh_iff.mp hfresh
    rw [hp] at hage
    have hyounger : s.premature c.now e = true := by
      rw [premature_iff]
      by_contra hno
      exact hat ⟨e, he, by omega, by omega⟩
    have hcounted : (s.evicts c).any (s.premature c.now) = true := by
      rw [Option.mem_def.mp he]
      exact hyounger
    rw [checkAndInsert_counter, if_pos hcounted]

/-- Whether a call is accepted, the entries stay where they are, but for the one driven out. -/
theorem Holds.checkAndInsert {key : String} {iat : Int64} (h : s.Holds key iat) :
    (s.checkAndInsert c).2.Holds key iat ∨ s.evicts c = some (key, iat) := by
  cases s.checkAndInsert_cases c with
  | inl hrefused =>
    obtain ⟨e, heq, -⟩ := hrefused
    rw [heq]
    exact .inl h
  | inr haccepted =>
    obtain ⟨heq, hnew, hevicts⟩ := haccepted
    rw [heq, hevicts]
    -- only the shard of the inserted key can lose an entry
    by_cases hshard : s.shardFor key = s.shardFor c.key
    · unfold Holds at h
      rw [hshard] at h
      have hstays : (s.record c).Holds key iat ↔
          (key, iat) ∈ ((s.shards (s.shardFor c.key)).push c.key c.iat).2.entries := by
        show (key, iat) ∈ (Function.update s.shards (s.shardFor c.key) _
          (s.shardFor key)).entries ↔ _
        rw [hshard, Function.update_self]
      rw [hstays]
      exact Lru.mem_push hnew h
    · left
      show (key, iat) ∈ (Function.update s.shards (s.shardFor c.key) _ (s.shardFor key)).entries
      rw [Function.update_of_ne hshard]
      exact h

/-- A key that is held is not accepted. -/
theorem Holds.not_accepted {iat : Int64} (h : s.Holds c.key iat) :
    (s.checkAndInsert c).1 ≠ .ok () := by
  intro hok
  cases s.checkAndInsert_cases c with
  | inl hrefused =>
    obtain ⟨e, heq, -⟩ := hrefused
    rw [heq] at hok
    exact absurd hok (by simp)
  | inr haccepted =>
    have hheld := Lru.contains_iff.mpr ⟨iat, h⟩
    rw [haccepted.2.1] at hheld
    exact absurd hheld (by simp)

/-! ## Runs -/

@[simp] theorem after_cons {calls : List TimedInsert} :
    s.after (c :: calls) = (s.checkAndInsert c).2.after calls := rfl

@[simp] theorem after_append {as bs : List TimedInsert} :
    s.after (as ++ bs) = (s.after as).after bs := List.foldl_append

theorem after_window (s : LruJtiStore) (calls : List TimedInsert) :
    (s.after calls).freshnessWindowSeconds = s.freshnessWindowSeconds := by
  induction calls generalizing s with
  | nil => rfl
  | cons c calls ih =>
    rw [after_cons, ih, checkAndInsert_window]

theorem counter_le_after (s : LruJtiStore) (calls : List TimedInsert) :
    s.prematureEvictions ≤ (s.after calls).prematureEvictions := by
  induction calls generalizing s with
  | nil => exact Nat.le_refl _
  | cons c calls ih =>
    apply Nat.le_trans _ (ih _)
    rw [checkAndInsert_counter]
    split
    · exact Nat.le_succ _
    · exact Nat.le_refl _

/-- Each shard has room for an entry. -/
def Roomy (s : LruJtiStore) : Prop := ∀ i, 0 < (s.shards i).cap

theorem roomy_withShardsAndWindow (hash : Bytes → UInt64) (capacity shards : Nat)
    (window : Int64) : (withShardsAndWindow hash capacity shards window).Roomy :=
  fun _ => Nat.le_max_right _ 1

theorem Roomy.record (h : s.Roomy) : (s.record c).Roomy := by
  intro (i : Fin s.shardCount)
  show 0 < (Function.update s.shards (s.shardFor c.key) _ i).cap
  by_cases hi : i = s.shardFor c.key
  · subst hi
    rw [Function.update_self]
    exact h (s.shardFor c.key)
  · rw [Function.update_of_ne hi]
    exact h i

theorem Roomy.checkAndInsert (h : s.Roomy) : (s.checkAndInsert c).2.Roomy := by
  cases s.checkAndInsert_cases c with
  | inl hrefused =>
    obtain ⟨e, heq, -⟩ := hrefused
    rw [heq]
    exact h
  | inr haccepted =>
    rw [haccepted.1]
    exact h.record

theorem Roomy.after (h : s.Roomy) (calls : List TimedInsert) : (s.after calls).Roomy := by
  induction calls generalizing s with
  | nil => exact h
  | cons c calls ih => exact ih h.checkAndInsert

theorem Roomy.holds (h : s.Roomy) (hok : (s.checkAndInsert c).1 = .ok ()) :
    (s.checkAndInsert c).2.Holds c.key c.iat := by
  cases s.checkAndInsert_cases c with
  | inl hrefused =>
    obtain ⟨e, heq, -⟩ := hrefused
    rw [heq] at hok
    exact absurd hok (by simp)
  | inr haccepted =>
    rw [haccepted.1]
    show (c.key, c.iat) ∈ (Function.update s.shards (s.shardFor c.key) _
      (s.shardFor c.key)).entries
    rw [Function.update_self]
    exact Lru.mem_put_self (h _)

/-- From a reading of the clock on, no proof of that time is fresh. -/
def StaleFrom (window : Int64) (now : ClockReading) (iat : Int64) : Prop :=
  ∀ later : ClockReading, now.secs.toInt ≤ later.secs.toInt → ∀ p : DpopPayload, p.iat = iat →
    p.isFresh later.secs window = false

/-- What is driven out uncounted, and not just at the age of the window, is stale for good. -/
theorem staleFrom_of_evicts {e : String × Int64} (he : s.evicts c = some e)
    (hat : ¬s.EvictsAtWindow c) (huncounted : ¬s.premature c.now e = true) :
    StaleFrom s.freshnessWindowSeconds c.now e.2 := by
  intro later hlater p hp
  rw [premature_iff] at huncounted
  by_contra hfresh
  have hage := DpopPayload.isFresh_iff.mp (Bool.not_eq_false _ ▸ hfresh)
  rw [hp] at hage
  exact hat ⟨e, he, by omega, by omega⟩

/-- No call of the run drives out a fresh entry that is exactly as old as the window. -/
def NeverAtWindow (s : LruJtiStore) (calls : List TimedInsert) : Prop :=
  ∀ as c bs, calls = as ++ c :: bs → ¬(s.after as).EvictsAtWindow c

theorem NeverAtWindow.tail {calls : List TimedInsert} (h : s.NeverAtWindow (c :: calls)) :
    ¬s.EvictsAtWindow c ∧ (s.checkAndInsert c).2.NeverAtWindow calls := by
  refine ⟨h [] c calls rfl, ?_⟩
  intro as c' bs heq
  exact h (c :: as) c' bs (by rw [heq, List.cons_append])

/-- While nothing is counted an entry is held, or has become stale for good. -/
theorem Holds.after {key : String} {iat : Int64} {calls : List TimedInsert}
    (h : s.Holds key iat) (hnever : s.NeverAtWindow calls)
    (hcounter : (s.after calls).prematureEvictions = s.prematureEvictions) :
    (s.after calls).Holds key iat ∨
      ∃ c ∈ calls, StaleFrom s.freshnessWindowSeconds c.now iat := by
  induction calls generalizing s with
  | nil => exact .inl h
  | cons c calls ih =>
    obtain ⟨hat, hnever⟩ := hnever.tail
    rw [after_cons] at hcounter ⊢
    -- the counter never falls, so with equal ends this call has counted nothing
    have hfirst := s.counter_le_after [c]
    have hrest := (s.checkAndInsert c).2.counter_le_after calls
    change s.prematureEvictions ≤ (s.checkAndInsert c).2.prematureEvictions at hfirst
    have hsame : (s.checkAndInsert c).2.prematureEvictions = s.prematureEvictions := by omega
    cases h.checkAndInsert with
    | inl hheld =>
      cases ih hheld hnever (hcounter.trans hsame.symm) with
      | inl hend => exact .inl hend
      | inr hstale =>
        obtain ⟨c', hc', hstale⟩ := hstale
        rw [checkAndInsert_window] at hstale
        exact .inr ⟨c', List.mem_cons_of_mem c hc', hstale⟩
    | inr hevicted =>
      right
      refine ⟨c, List.mem_cons_self, staleFrom_of_evicts hevicted hat ?_⟩
      intro hpremature
      rw [checkAndInsert_counter, hevicted, Option.any_some, if_pos hpremature] at hsame
      omega

/-- **The canary, over every run**: each eviction of a fresh identifier is counted exactly if
    no call drives one out at the age of the window. In such a run, while the counter is zero,
    no key is accepted a second time while a proof of its first acceptance is still fresh.

    A store that is bounded has to forget, and the counter says when it has forgotten something that
    it should not have. It leaves out what is driven out at exactly the age of the window, at which
    a proof is still fresh. Where that never happens, a counter of zero is as good as a store that
    never forgets. -/
theorem lruJtiStore_canary (hash : Bytes → UInt64) (capacity shards : Nat) (window : Int64)
    (run : InsertRun) :
    ((∀ as c bs, run.calls = as ++ c :: bs →
        ((withShardsAndWindow hash capacity shards window).after as).CountsFresh c) ↔
      (withShardsAndWindow hash capacity shards window).NeverAtWindow run.calls) ∧
    ((withShardsAndWindow hash capacity shards window).NeverAtWindow run.calls →
      ((withShardsAndWindow hash capacity shards window).after
        run.calls).prematureEvictions = 0 →
      ∀ as c₁ bs c₂ cs, run.calls = as ++ c₁ :: (bs ++ c₂ :: cs) → c₁.key = c₂.key →
        (((withShardsAndWindow hash capacity shards window).after as).checkAndInsert c₁).1 =
          .ok () →
        (((withShardsAndWindow hash capacity shards window).after
          (as ++ c₁ :: bs)).checkAndInsert c₂).1 = .ok () →
        ∀ p : DpopPayload, p.iat = c₁.iat → p.isFresh c₂.now.secs window = false) := by
  constructor
  · exact forall₄_congr fun as c bs _ => countsFresh_iff
  · intro hnever hzero as c₁ bs c₂ cs hcalls hkey hfirst hsecond p hp
    have hordered := run.ordered
    have hroomy := roomy_withShardsAndWindow hash capacity shards window
    have hwindow : (withShardsAndWindow hash capacity shards window).freshnessWindowSeconds =
        window := rfl
    generalize withShardsAndWindow hash capacity shards window = s₀ at *
    rw [hcalls] at hnever hordered hzero
    -- the store just after the first acceptance, and at the second
    have hheld := (hroomy.after as).holds hfirst
    generalize hs₁ : ((s₀.after as).checkAndInsert c₁).2 = s₁ at hheld
    have hs₂ : s₀.after (as ++ c₁ :: bs) = s₁.after bs := by
      rw [after_append, after_cons, hs₁]
    have hbetween : s₁.NeverAtWindow bs := by
      intro as' c bs' heq
      have := hnever (as ++ c₁ :: as') c (bs' ++ c₂ :: cs) (by rw [heq]; simp)
      rwa [after_append, after_cons, hs₁] at this
    have hcounter : (s₁.after bs).prematureEvictions = s₁.prematureEvictions := by
      have hend : s₀.after (as ++ c₁ :: (bs ++ c₂ :: cs)) = (s₁.after bs).after (c₂ :: cs) := by
        rw [after_append, after_cons, hs₁, after_append]
      rw [hend] at hzero
      have hlast := (s₁.after bs).counter_le_after (c₂ :: cs)
      have hmiddle := s₁.counter_le_after bs
      omega
    have hwindow₁ : s₁.freshnessWindowSeconds = window := by
      rw [← hs₁, checkAndInsert_window, after_window, hwindow]
    cases hheld.after hbetween hcounter with
    | inl hstill =>
      rw [hs₂] at hsecond
      rw [hkey] at hstill
      exact absurd hsecond hstill.not_accepted
    | inr hstale =>
      obtain ⟨c, hc, hstale⟩ := hstale
      rw [hwindow₁] at hstale
      have htail := (List.pairwise_cons.mp (List.pairwise_append.mp hordered).2.1).2
      have hle := (List.pairwise_append.mp htail).2.2 c hc c₂ List.mem_cons_self
      exact hstale c₂.now hle p hp

/-- A thousand shards with room for one entry each, keys that all go to one of them, and a
    window of 300 seconds. -/
def crowdedStore : LruJtiStore := withShardsAndWindow (fun _ => 0) 1000 1000 300

def issuedA : TimedInsert := ⟨⟨0, by decide⟩, "a", 0⟩
def issuedB : TimedInsert := ⟨⟨300, by decide⟩, "b", 0⟩
def replayedA : TimedInsert := ⟨⟨300, by decide⟩, "a", 0⟩

/-- The second key drives the first one out at the age of 300 seconds, and goes likewise. -/
def crowdedCalls : InsertRun where
  calls := [issuedA, issuedB, replayedA]
  ordered := by decide

/-- Nothing was counted, and the third call accepts again what is still fresh. -/
theorem lruJtiStore_canary_silent :
    (crowdedStore.after crowdedCalls.calls).prematureEvictions = 0 ∧
      (crowdedStore.checkAndInsert issuedA).1 = .ok () ∧
      ((crowdedStore.after [issuedA, issuedB]).checkAndInsert replayedA).1 = .ok () ∧
      (⟨none, 0, .newMoqt .subscribe [] [], none, none⟩ : DpopPayload).isFresh 300 300 = true := by
  decide +kernel

end LruJtiStore

end Cat
