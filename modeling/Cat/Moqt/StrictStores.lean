import Cat.Dpop.StrictRuns
import Cat.Moqt.AsyncAgrees

/-!
# One machine, two strict stores

The sharded store and the store behind one lock, run side by side. They retain the same keys
over every run. They also return the same results, but for an insertion of a retained key while
there is no room: the sharded store looks at the room first and says so, the other one looks at
the key first and reports a replay.

Both refuse such an insertion, so the states stay related whatever the result is called, and a
run can be compared to its end although results on the way differ. The relation between the
states is that they hold the same entries under the same bound; the count that the sharded store
keeps is the number of its entries by the invariant of its own runs.

A result is a verdict and what it is called. Callers go by the verdict, operators read what it
is called, and the statement has both: equal verdicts everywhere, equal results off the one
case.
-/

set_option autoImplicit false

namespace Cat

open Cbor

/-! ## Results -/

/-- The same result in either store's words: accepted, replay, key too long, over capacity. -/
inductive SameOutcome : Except CatError Unit → Except CatError Unit → Prop where
  | accepted : SameOutcome (.ok ()) (.ok ())
  | replay : SameOutcome (.error .replayAttackDetected) (.error .replayAttackDetected)
  | keyTooLong :
    SameOutcome (.error (.dpopValidationFailed s!"JTI exceeds {maxJtiLengthBytes} byte cap"))
      (.error (.dpopValidationFailed s!"JTI exceeds {maxJtiLengthBytes} byte cap"))
  | overCapacity (max : Nat) :
    SameOutcome
      (.error (.dpopValidationFailed
        s!"strict JTI store at max_entries={max}; increase capacity or cleanup cadence"))
      (.error (.dpopValidationFailed
        s!"async strict JTI store at max_entries={max}; increase capacity or cleanup cadence"))

/-- A replay is reported by both or by none. -/
theorem SameOutcome.not_replay {msg : String} :
    ¬SameOutcome (.error (.dpopValidationFailed msg)) (.error .replayAttackDetected) := by
  intro h
  cases h

/-- An insertion of a key that is retained, with no room for another one. -/
def JtiOp.ReplaysWhenFull (retained : Finset String) (maxEntries : Option Nat) : JtiOp → Prop
  | .checkAndInsert key _ => (utf8 key).length ≤ maxJtiLengthBytes ∧ key ∈ retained ∧
      ∃ max ∈ maxEntries, max ≤ retained.card
  | .cleanup _ _ => False

/-! ## The store behind one lock -/

namespace AsyncInMemoryStrictJtiStore

def dangerouslyUnbounded : AsyncInMemoryStrictJtiStore := ⟨.empty, none, 0⟩

/-- Either of the constructors. -/
def build : Option Nat → AsyncInMemoryStrictJtiStore
  | some max => new max
  | none => dangerouslyUnbounded

def exec (t : AsyncInMemoryStrictJtiStore) :
    JtiOp → Except CatError Unit × AsyncInMemoryStrictJtiStore
  | .checkAndInsert key iat => t.checkAndInsert key iat
  | .cleanup now maxAge => (.ok (), t.cleanup now.secs maxAge)

def after (t : AsyncInMemoryStrictJtiStore) (ops : List JtiOp) : AsyncInMemoryStrictJtiStore :=
  ops.foldl (fun t op => (t.exec op).2) t

def retainedKeys (t : AsyncInMemoryStrictJtiStore) : Finset String := t.entries.keys.toFinset

theorem card_retainedKeys (t : AsyncInMemoryStrictJtiStore) :
    t.retainedKeys.card = t.entries.entries.length :=
  (List.toFinset_card_of_nodup t.entries.nodup).trans (List.length_map _)

end AsyncInMemoryStrictJtiStore

/-! ## Side by side -/

namespace InMemoryStrictJtiStore

variable {s : InMemoryStrictJtiStore} {t : AsyncInMemoryStrictJtiStore}

theorem Sound.retainedKeys_eq (h : s.Sound)
    (hholds : ∀ key iat, s.Holds key iat ↔ (key, iat) ∈ t.entries) :
    s.retainedKeys = t.retainedKeys := by
  ext key
  rw [h.mem_retainedKeys, AsyncInMemoryStrictJtiStore.retainedKeys, List.mem_toFinset,
    KeyedList.mem_keys]
  exact exists_congr fun iat => hholds key iat

/-- Stores with the same entries count the same: the counter is the number of keys. -/
theorem Sound.sameEntries (h : s.Sound) (hmax : s.maxEntries = t.maxEntries)
    (hholds : ∀ key iat, s.Holds key iat ↔ (key, iat) ∈ t.entries) : SameEntries s t where
  maxEntries := hmax
  total := by rw [h.total_eq_card, h.retainedKeys_eq hholds, t.card_retainedKeys]
  holds := hholds

/-- One operation keeps the entries the same. -/
theorem sameEntries_exec (h : s.Sound) (hsame : SameEntries s t) (op : JtiOp) :
    SameEntries (s.exec op).2 (t.exec op).2 := by
  cases op with
  | checkAndInsert key iat => exact (agree_async 0 key iat s t hsame).state
  | cleanup now maxAge =>
    have hmax : (s.cleanup now.secs maxAge).maxEntries = (t.cleanup now.secs maxAge).maxEntries :=
      hsame.maxEntries
    apply (h.cleanup now.secs maxAge).sameEntries hmax
    intro key iat
    rw [holds_cleanup_clock, hsame.holds key iat]
    exact JtiEntries.mem_retainYounger_clock.symm

theorem sameEntries_after (h : s.Sound) (hsame : SameEntries s t) (ops : List JtiOp) :
    SameEntries (s.after (ops.map .shared)) (t.after ops) := by
  induction ops generalizing s t with
  | nil => exact hsame
  | cons op ops ih => exact ih (h.call (.shared op)) (sameEntries_exec h hsame op)

/-- **Where the two differ**: on an insertion of a retained key when there is no room. -/
theorem sameOutcome_iff (h : s.Sound) (hsame : SameEntries s t) (op : JtiOp) :
    SameOutcome (s.exec op).1 (t.exec op).1 ↔
      ¬op.ReplaysWhenFull s.retainedKeys s.maxEntries := by
  cases op with
  | cleanup now maxAge =>
    constructor
    · intro _ hnever
      exact hnever
    · intro _
      exact .accepted
  | checkAndInsert key iat =>
    have hkeys : key ∈ (s.shards (s.shardFor key)).keys ↔ key ∈ t.entries.keys := by
      rw [KeyedList.mem_keys, KeyedList.mem_keys]
      exact exists_congr fun i => hsame.holds key i
    have hretained : key ∈ s.retainedKeys ↔ key ∈ t.entries.keys := by
      rw [h.retainedKeys_eq hsame.holds]
      exact List.mem_toFinset
    have hfull :
        s.overCapacity = t.maxEntries.filter fun max => t.entries.entries.length ≥ max := by
      rw [overCapacity, hsame.maxEntries, hsame.total]
    show SameOutcome (s.checkAndInsert key iat).1 (t.checkAndInsert key iat).1 ↔
      ¬((utf8 key).length ≤ maxJtiLengthBytes ∧ key ∈ s.retainedKeys ∧
        ∃ max ∈ s.maxEntries, max ≤ s.retainedKeys.card)
    unfold checkAndInsert AsyncInMemoryStrictJtiStore.checkAndInsert
    -- both stores look at the length first; then the one asks for room and the other for the key
    by_cases hlong : (utf8 key).length > maxJtiLengthBytes
    · rw [if_pos hlong, if_pos hlong]
      constructor
      · intro _ hshort
        exact absurd hshort.1 (Nat.not_le.mpr hlong)
      · intro _
        exact .keyTooLong
    · rw [if_neg hlong, if_neg hlong, ← hfull, ← h.total_eq_card, hretained]
      cases hroom : s.overCapacity with
      | some max =>
        obtain ⟨hmax, hle⟩ := Option.filter_eq_some_iff.mp hroom
        by_cases hkey : key ∈ t.entries.keys
        · rw [dif_pos hkey]
          constructor
          · intro hdiffer
            exact absurd hdiffer SameOutcome.not_replay
          · intro hnot
            exact absurd ⟨Nat.not_lt.mp hlong, hkey, max, hmax, by simpa using hle⟩ hnot
        · rw [dif_neg hkey]
          constructor
          · intro _ hheld
            exact hkey hheld.2.1
          · intro _
            exact .overCapacity max
      | none =>
        dsimp only
        have hnot : ¬∃ max ∈ s.maxEntries, max ≤ s.totalEntries := by
          intro hmax
          obtain ⟨max, hmem, hle⟩ := hmax
          have := Option.filter_eq_none_iff.mp hroom max hmem
          exact this (by simpa using hle)
        by_cases hkey : key ∈ t.entries.keys
        · rw [dif_pos hkey, dif_pos (hkeys.mpr hkey)]
          constructor
          · intro _ hheld
            exact hnot hheld.2.2
          · intro _
            exact .replay
        · rw [dif_neg hkey, dif_neg (hkeys.not.mpr hkey)]
          constructor
          · intro _ hheld
            exact hkey hheld.2.1
          · intro _
            exact .accepted

end InMemoryStrictJtiStore

/-- **Two stores of one capacity, run from empty**: they retain the same keys after every step,
    and return the same results throughout exactly when no step inserts a retained key while
    there is no room.

    Both stores refuse a key that they hold, and both refuse when they are full, but they ask in
    opposite order. It shows only when a retained key is presented to a full store: the one reports
    a replay, the other a lack of room. Neither stores anything then, which is why the keys are the
    same regardless. -/
theorem strictStores_same_iff (hash : String → UInt64) (window : Int64) (maxEntries : Option Nat)
    (ops : List JtiOp) :
    (∀ as op bs, ops = as ++ op :: bs →
        SameOutcome
            (((InMemoryStrictJtiStore.build hash window maxEntries).after
              (as.map .shared)).exec op).1
            (((AsyncInMemoryStrictJtiStore.build maxEntries).after as).exec op).1 ∧
          (((InMemoryStrictJtiStore.build hash window maxEntries).after
              (as.map .shared)).exec op).2.retainedKeys =
            (((AsyncInMemoryStrictJtiStore.build maxEntries).after as).exec op).2.retainedKeys) ↔
      ∀ as op bs, ops = as ++ op :: bs →
        ¬op.ReplaysWhenFull ((InMemoryStrictJtiStore.build hash window maxEntries).after
          (as.map .shared)).retainedKeys maxEntries := by
  have hempty : SameEntries (InMemoryStrictJtiStore.build hash window maxEntries)
      (AsyncInMemoryStrictJtiStore.build maxEntries) := by
    apply (InMemoryStrictJtiStore.sound_build hash window maxEntries).sameEntries
    · cases maxEntries <;> rfl
    · intro key iat
      cases maxEntries <;> rfl
  refine forall₄_congr fun as op bs _ => ?_
  have hsound := (InMemoryStrictJtiStore.sound_build hash window maxEntries).after (as.map .shared)
  have hsame := InMemoryStrictJtiStore.sameEntries_after
    (InMemoryStrictJtiStore.sound_build hash window maxEntries) hempty as
  have hkeys := (hsound.call (.shared op)).retainedKeys_eq
    (InMemoryStrictJtiStore.sameEntries_exec hsound hsame op).holds
  have hmax := ((InMemoryStrictJtiStore.build hash window maxEntries).after_settings
    (as.map .shared)).1
  constructor
  · intro h
    have := (InMemoryStrictJtiStore.sameOutcome_iff hsound hsame op).mp h.1
    rwa [hmax] at this
  · intro h
    refine ⟨(InMemoryStrictJtiStore.sameOutcome_iff hsound hsame op).mpr ?_, hkeys⟩
    rw [hmax]
    exact h

/-- With room for one key, inserting it twice is an overflow to the one and a replay to the
    other. -/
theorem strictStores_differ :
    ¬SameOutcome
      (((InMemoryStrictJtiStore.build (fun _ => 0) 300 (some 1)).after
        [.shared (.checkAndInsert "k" 0)]).exec (.checkAndInsert "k" 0)).1
      (((AsyncInMemoryStrictJtiStore.build (some 1)).after
        [.checkAndInsert "k" 0]).exec (.checkAndInsert "k" 0)).1 := by
  have hsync : (((InMemoryStrictJtiStore.build (fun _ => 0) 300 (some 1)).after
      [.shared (.checkAndInsert "k" 0)]).exec (.checkAndInsert "k" 0)).1 =
        .error (.dpopValidationFailed
          "strict JTI store at max_entries=1; increase capacity or cleanup cadence") := by
    decide +kernel
  have hasync : (((AsyncInMemoryStrictJtiStore.build (some 1)).after
      [.checkAndInsert "k" 0]).exec (.checkAndInsert "k" 0)).1 =
        .error .replayAttackDetected := by
    decide +kernel
  rw [hsync, hasync]
  exact SameOutcome.not_replay

end Cat
