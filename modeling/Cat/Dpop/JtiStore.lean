import Cat.Cwt.Values
import Cat.Lib.CheckedInt
import Cat.Lib.FiniteMaps

/-!
# Stores of proof identifiers

A `JtiStore` enters an identifier that is new and refuses one that it holds. The trait object of
the source is the operations over a type of states; what an operation reads from the clock is an
argument.

`InMemoryStrictJtiStore` is the store the crate ships for one relay, in sixteen shards, and
`AsyncInMemoryStrictJtiStore` its counterpart behind one lock. The latter's `BackendUnavailable`
for a poisoned lock is left out: nothing panics while holding it.

The hash that chooses a shard is a field of the store, since Rust's differs from run to run, and
everything holds for any. An operation on one key works in one shard and on the count of
entries, which is kept beside the shards; that the count is right is an invariant of runs
(`StrictRuns`) and not of the type, since a map of sixteen shards can be written down with any
count.

The two stores check in different orders, as in the source: the sharded one refuses a key it
holds for lack of room when it is full, the other one refuses it as a replay whether it is full
or not.
-/

set_option autoImplicit false

namespace Cat

open Cbor

def maxJtiLengthBytes : Nat := 256
def defaultJtiShards : Nat := 16

/-- A store of identifiers, by its operations on a state that is passed along. -/
structure JtiStore (σ : Type) where
  /-- Clock, key and time of issue. -/
  checkAndInsert : Int64 → String → Int64 → σ → Except CatError Unit × σ
  cleanup : Int64 → Int64 → σ → σ
  isStrict : Bool

/-- Cleaning up is not part of this interface. -/
structure AsyncJtiStore (σ : Type) where
  checkAndInsert : Int64 → String → Int64 → σ → Except CatError Unit × σ
  isStrict : Bool

/-- `AsyncJtiStoreAdapter`: a direct call of the store it wraps. -/
def JtiStore.toAsync {σ : Type} (S : JtiStore σ) : AsyncJtiStore σ := ⟨S.checkAndInsert, S.isStrict⟩

/-- The entries of one lock: key and time of issue. -/
abbrev JtiEntries := KeyedList String Int64

/-- `retain`: the entries younger than a bound. -/
def JtiEntries.retainYounger (entries : JtiEntries) (now maxAgeSeconds : Int64) : JtiEntries :=
  entries.retain fun _ iat => now.saturatingSub iat < maxAgeSeconds

theorem JtiEntries.mem_retainYounger {entries : JtiEntries} {now maxAge : Int64}
    (h : -2 ^ 63 < maxAge.toInt) {e : String × Int64} :
    e ∈ entries.retainYounger now maxAge ↔ e ∈ entries ∧ now.toInt - e.2.toInt < maxAge.toInt := by
  rw [retainYounger, KeyedList.mem_retain, decide_eq_true_iff, Int64.lt_iff_toInt_lt,
    Int64.saturatingSub_lt h]

/-! ## The sharded store -/

/-- The counter of entries is shared by the shards, and the capacity is that of all together. -/
structure InMemoryStrictJtiStore where
  shards : Fin defaultJtiShards → JtiEntries
  hash : String → UInt64
  freshnessWindowSeconds : Int64
  maxEntries : Option Nat
  totalEntries : Nat
  rejectedOverCapacity : Nat

namespace InMemoryStrictJtiStore

def build (hash : String → UInt64) (freshnessWindowSeconds : Int64) (maxEntries : Option Nat) :
    InMemoryStrictJtiStore := ⟨fun _ => .empty, hash, freshnessWindowSeconds, maxEntries, 0, 0⟩

def new (hash : String → UInt64) (freshnessWindowSeconds : Int64) (maxEntries : Nat) :
    InMemoryStrictJtiStore := build hash freshnessWindowSeconds (some maxEntries)

def shardFor (s : InMemoryStrictJtiStore) (key : String) : Fin defaultJtiShards :=
  ⟨(s.hash key).toNat % defaultJtiShards, Nat.mod_lt _ (by decide)⟩

/-- The store with an entry more. -/
def record (s : InMemoryStrictJtiStore) (key : String) (iat : Int64)
    (h : key ∉ (s.shards (s.shardFor key)).keys) : InMemoryStrictJtiStore :=
  { s with
    shards := Function.update s.shards (s.shardFor key)
      ((s.shards (s.shardFor key)).insertNew key iat h)
    totalEntries := s.totalEntries + 1 }

/-- The capacity if it is reached. -/
def overCapacity (s : InMemoryStrictJtiStore) : Option Nat :=
  s.maxEntries.filter fun max => s.totalEntries ≥ max

def checkAndInsert (s : InMemoryStrictJtiStore) (key : String) (iat : Int64) :
    Except CatError Unit × InMemoryStrictJtiStore :=
  if (utf8 key).length > maxJtiLengthBytes then
    (.error (.dpopValidationFailed s!"JTI exceeds {maxJtiLengthBytes} byte cap"), s)
  else
    match s.overCapacity with
    | some max =>
      (.error (.dpopValidationFailed
        s!"strict JTI store at max_entries={max}; increase capacity or cleanup cadence"),
       { s with rejectedOverCapacity := s.rejectedOverCapacity + 1 })
    | none =>
      if h : key ∈ (s.shards (s.shardFor key)).keys then (.error .replayAttackDetected, s)
      else (.ok (), s.record key iat h)

def cleanup (s : InMemoryStrictJtiStore) (now maxAgeSeconds : Int64) : InMemoryStrictJtiStore :=
  let kept := fun i => (s.shards i).retainYounger now maxAgeSeconds
  let removed := ((List.finRange defaultJtiShards).map fun i =>
    (s.shards i).entries.length - (kept i).entries.length).sum
  { s with shards := kept, totalEntries := s.totalEntries - removed }

/-- By the store's own window. -/
def cleanupExpired (s : InMemoryStrictJtiStore) (now : Int64) : InMemoryStrictJtiStore :=
  s.cleanup now s.freshnessWindowSeconds

/-- The implementation of the trait. -/
def store : JtiStore InMemoryStrictJtiStore where
  checkAndInsert _ key iat s := s.checkAndInsert key iat
  cleanup now maxAge s := s.cleanup now maxAge
  isStrict := true

/-- The entries of all shards. -/
def Holds (s : InMemoryStrictJtiStore) (key : String) (iat : Int64) : Prop :=
  (key, iat) ∈ s.shards (s.shardFor key)

variable {s s' : InMemoryStrictJtiStore} {key : String} {iat : Int64}

theorem holds_record {h : key ∉ (s.shards (s.shardFor key)).keys} {k : String} {i : Int64} :
    (s.record key iat h).Holds k i ↔ (k, i) = (key, iat) ∨ s.Holds k i := by
  show (k, i) ∈ Function.update s.shards (s.shardFor key) _ (s.shardFor k) ↔ _
  by_cases hk : s.shardFor k = s.shardFor key
  · rw [hk, Function.update_self, KeyedList.mem_insertNew, Holds, hk]
  · rw [Function.update_of_ne hk]
    constructor
    · exact Or.inr
    · rintro (heq | hmem)
      · exact absurd (by rw [(Prod.mk.inj heq).1]) hk
      · exact hmem

/-- **An accepted key was not held, and is the one entry more.** -/
theorem checkAndInsert_ok (h : s.checkAndInsert key iat = (.ok (), s')) :
    (∀ i, ¬s.Holds key i) ∧ s'.freshnessWindowSeconds = s.freshnessWindowSeconds ∧
      ∀ k i, s'.Holds k i ↔ (k, i) = (key, iat) ∨ s.Holds k i := by
  unfold checkAndInsert at h
  split at h
  · exact absurd (Prod.mk.inj h).1 (by simp)
  · split at h
    · exact absurd (Prod.mk.inj h).1 (by simp)
    · split at h
      · exact absurd (Prod.mk.inj h).1 (by simp)
      · rename_i hkey
        obtain rfl := (Prod.mk.inj h).2
        exact ⟨fun i hi => hkey (KeyedList.mem_keys.mpr ⟨i, hi⟩), rfl, fun k i => holds_record⟩

/-- A refusal leaves the entries alone. -/
theorem checkAndInsert_error {e : CatError} (h : s.checkAndInsert key iat = (.error e, s')) :
    s'.shards = s.shards ∧ s'.hash = s.hash ∧
      s'.freshnessWindowSeconds = s.freshnessWindowSeconds := by
  unfold checkAndInsert at h
  split at h
  · obtain rfl := (Prod.mk.inj h).2
    exact ⟨rfl, rfl, rfl⟩
  · split at h
    · obtain rfl := (Prod.mk.inj h).2
      exact ⟨rfl, rfl, rfl⟩
    · split at h
      · obtain rfl := (Prod.mk.inj h).2
        exact ⟨rfl, rfl, rfl⟩
      · exact absurd (Prod.mk.inj h).1 (by simp)

theorem holds_congr (hshards : s'.shards = s.shards) (hhash : s'.hash = s.hash) :
    s'.Holds key iat ↔ s.Holds key iat := by
  have hshard : s'.shardFor key = s.shardFor key := by
    unfold shardFor
    simp only [hhash]
  unfold Holds
  rw [hshards, hshard]

theorem holds_cleanup {now maxAge : Int64} (h : -2 ^ 63 < maxAge.toInt) :
    (s.cleanup now maxAge).Holds key iat ↔
      s.Holds key iat ∧ now.toInt - iat.toInt < maxAge.toInt :=
  JtiEntries.mem_retainYounger h

end InMemoryStrictJtiStore

/-! ## The store behind one lock -/

/-- One map, whose length is the number of entries. -/
structure AsyncInMemoryStrictJtiStore where
  entries : JtiEntries
  maxEntries : Option Nat
  rejectedOverCapacity : Nat

namespace AsyncInMemoryStrictJtiStore

def new (maxEntries : Nat) : AsyncInMemoryStrictJtiStore := ⟨.empty, some maxEntries, 0⟩

/-- A key that is held is a replay, also where there is no room. -/
def checkAndInsert (s : AsyncInMemoryStrictJtiStore) (key : String) (iat : Int64) :
    Except CatError Unit × AsyncInMemoryStrictJtiStore :=
  if (utf8 key).length > maxJtiLengthBytes then
    (.error (.dpopValidationFailed s!"JTI exceeds {maxJtiLengthBytes} byte cap"), s)
  else if h : key ∈ s.entries.keys then (.error .replayAttackDetected, s)
  else
    match s.maxEntries.filter fun max => s.entries.entries.length ≥ max with
    | some max =>
      (.error (.dpopValidationFailed
        s!"async strict JTI store at max_entries={max}; increase capacity or cleanup cadence"),
       { s with rejectedOverCapacity := s.rejectedOverCapacity + 1 })
    | none => (.ok (), { s with entries := s.entries.insertNew key iat h })

def cleanup (s : AsyncInMemoryStrictJtiStore) (now maxAgeSeconds : Int64) :
    AsyncInMemoryStrictJtiStore := { s with entries := s.entries.retainYounger now maxAgeSeconds }

def store : AsyncJtiStore AsyncInMemoryStrictJtiStore where
  checkAndInsert _ key iat s := s.checkAndInsert key iat
  isStrict := true

end AsyncInMemoryStrictJtiStore
end Cat
