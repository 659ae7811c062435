import Cat.Dpop.JtiStore
import Cat.Lib.BoundedSets

/-!
# Runs of the strict store

The strict store counts its entries apart from the shards that hold them. Over any run of its
operations the counter is the number of keys retained and keeps to the bound
(`InMemoryStrictJtiStore.Sound`), an error changes neither, and a key that was accepted is
accepted again only after a cleanup whose age bound it had reached.

The counter is there so that the capacity can be checked without looking into all the shards,
and everything depends on its being right: too high and the store refuses what it has room for,
too low and it grows beyond its bound. An insertion adds one where a key was entered, a cleanup
takes off what each shard has dropped.

The third statement is about two acceptances of one key in a run. Between them there has to be a
step that dropped it, and only a cleanup drops anything; which of its records a cleanup drops is
decided by their age, so the age is what the statement has.
-/

set_option autoImplicit false

namespace Cat

open Cbor

/-! ## Operations -/

/-- What the clock says: `SystemTime::now()` in whole seconds since the epoch, zero before it. -/
structure ClockReading where
  secs : Int64
  nonneg : 0 ≤ secs.toInt

/-- The operations that every strict store has. -/
inductive JtiOp where
  | checkAndInsert (key : String) (iat : Int64)
  | cleanup (now : ClockReading) (maxAgeSeconds : Int64)

inductive StrictJtiOp where
  | shared (op : JtiOp)
  | cleanupExpired (now : ClockReading)

/-- A cleanup whose age bound an entry has reached. -/
def StrictJtiOp.Reaches (windowSeconds iat : Int64) : StrictJtiOp → Prop
  | .shared (.checkAndInsert _ _) => False
  | .shared (.cleanup now maxAge) => maxAge.toInt ≤ now.secs.toInt - iat.toInt
  | .cleanupExpired now => windowSeconds.toInt ≤ now.secs.toInt - iat.toInt

/-- With a clock that is not before the epoch the age does not saturate below. -/
theorem JtiEntries.mem_retainYounger_clock {entries : JtiEntries} {now : ClockReading}
    {maxAge : Int64} {e : String × Int64} :
    e ∈ entries.retainYounger now.secs maxAge ↔
      e ∈ entries ∧ now.secs.toInt - e.2.toInt < maxAge.toInt := by
  have hnow := now.nonneg
  have hiat := e.2.toInt_lt
  rw [retainYounger, KeyedList.mem_retain, decide_eq_true_iff, Int64.lt_iff_toInt_lt,
    Int64.saturatingSub, Int64.clampInt_lt_of_le (by omega)]

theorem JtiEntries.length_retainYounger_le (entries : JtiEntries) (now maxAge : Int64) :
    (entries.retainYounger now maxAge).entries.length ≤ entries.entries.length :=
  List.length_filter_le _ _

namespace InMemoryStrictJtiStore

variable {s s' : InMemoryStrictJtiStore} {key : String} {iat : Int64}

def exec (s : InMemoryStrictJtiStore) : JtiOp → Except CatError Unit × InMemoryStrictJtiStore
  | .checkAndInsert key iat => s.checkAndInsert key iat
  | .cleanup now maxAge => (.ok (), s.cleanup now.secs maxAge)

def call (s : InMemoryStrictJtiStore) :
    StrictJtiOp → Except CatError Unit × InMemoryStrictJtiStore
  | .shared op => s.exec op
  | .cleanupExpired now => (.ok (), s.cleanupExpired now.secs)

/-- The store after a run. -/
def after (s : InMemoryStrictJtiStore) (ops : List StrictJtiOp) : InMemoryStrictJtiStore :=
  ops.foldl (fun s op => (s.call op).2) s

@[simp] theorem after_nil : s.after [] = s := rfl

@[simp] theorem after_cons {op : StrictJtiOp} {ops : List StrictJtiOp} :
    s.after (op :: ops) = (s.call op).2.after ops := rfl

@[simp] theorem after_append {as bs : List StrictJtiOp} :
    s.after (as ++ bs) = (s.after as).after bs := List.foldl_append

/-- What every call preserves, every run does. -/
theorem after_induction {I : InMemoryStrictJtiStore → Prop} (hs : I s)
    (hcall : ∀ s op, I s → I (s.call op).2) (ops : List StrictJtiOp) : I (s.after ops) := by
  induction ops generalizing s with
  | nil => exact hs
  | cons op ops ih => exact ih (hcall s op hs)

/-! ## The counter -/

/-- The distinct keys in all shards. -/
def retainedKeys (s : InMemoryStrictJtiStore) : Finset String :=
  Finset.univ.biUnion fun i => (s.shards i).keys.toFinset

/-- Each key is in its own shard, and the counter is the number of entries, within the bound. -/
structure Sound (s : InMemoryStrictJtiStore) : Prop where
  own : ∀ i, ∀ key ∈ (s.shards i).keys, s.shardFor key = i
  total : s.totalEntries = ∑ i, (s.shards i).entries.length
  bounded : ∀ max ∈ s.maxEntries, s.totalEntries ≤ max

theorem Sound.mem_retainedKeys (h : s.Sound) :
    key ∈ s.retainedKeys ↔ ∃ iat, s.Holds key iat := by
  simp only [retainedKeys, Finset.mem_biUnion, Finset.mem_univ, true_and, List.mem_toFinset]
  constructor
  · intro hkey
    obtain ⟨i, hi⟩ := hkey
    obtain rfl := h.own i key hi
    exact KeyedList.mem_keys.mp hi
  · intro hheld
    exact ⟨s.shardFor key, KeyedList.mem_keys.mpr hheld⟩

theorem Sound.total_eq_card (h : s.Sound) : s.totalEntries = s.retainedKeys.card := by
  calc s.totalEntries
      = ∑ i, (s.shards i).entries.length := h.total
    _ = ∑ i, (s.shards i).keys.length :=
        Finset.sum_congr rfl fun i _ => (List.length_map _).symm
    _ = s.retainedKeys.card :=
        Shards.sum_length_eq_card (fun i => (s.shards i).nodup) h.own

theorem sound_build (hash : String → UInt64) (window : Int64) (maxEntries : Option Nat) :
    (build hash window maxEntries).Sound where
  own i key hkey := absurd hkey List.not_mem_nil
  total := by simp [build, KeyedList.empty]
  bounded max _ := Nat.zero_le max

theorem Sound.record (h : s.Sound) {hnew : key ∉ (s.shards (s.shardFor key)).keys}
    (hroom : ∀ max ∈ s.maxEntries, s.totalEntries < max) : (s.record key iat hnew).Sound where
  own i k hk := by
    show s.shardFor k = i
    -- only the shard of the new key has changed
    by_cases hi : i = s.shardFor key
    · subst hi
      have hk' : k ∈ (Function.update s.shards (s.shardFor key)
        ((s.shards (s.shardFor key)).insertNew key iat hnew) (s.shardFor key)).keys := hk
      rw [Function.update_self, KeyedList.keys_insertNew, List.mem_cons] at hk'
      cases hk' with
      | inl heq => rw [heq]
      | inr hold => exact h.own _ k hold
    · have hk' : k ∈ (Function.update s.shards (s.shardFor key)
        ((s.shards (s.shardFor key)).insertNew key iat hnew) i).keys := hk
      rw [Function.update_of_ne hi] at hk'
      exact h.own i k hk'
  total := by
    show s.totalEntries + 1 = ∑ i, (Function.update s.shards (s.shardFor key)
      ((s.shards (s.shardFor key)).insertNew key iat hnew) i).entries.length
    -- the sum is taken apart at the one shard that grows
    have hothers : ∀ i ∈ Finset.univ.erase (s.shardFor key),
        (Function.update s.shards (s.shardFor key)
          ((s.shards (s.shardFor key)).insertNew key iat hnew) i).entries.length =
        (s.shards i).entries.length := by
      intro i hi
      rw [Function.update_of_ne (Finset.ne_of_mem_erase hi)]
    rw [h.total, ← Finset.add_sum_erase _ _ (Finset.mem_univ (s.shardFor key)),
      ← Finset.add_sum_erase _ (fun i => (Function.update s.shards (s.shardFor key)
        ((s.shards (s.shardFor key)).insertNew key iat hnew) i).entries.length)
        (Finset.mem_univ (s.shardFor key)),
      Finset.sum_congr rfl hothers, Function.update_self]
    show _ = (s.shards (s.shardFor key)).entries.length + 1 + _
    omega
  bounded max hmax := hroom max hmax

/-- A cleanup takes from the counter what it takes from the shards. -/
theorem Sound.cleanup (h : s.Sound) (now maxAge : Int64) : (s.cleanup now maxAge).Sound := by
  have htotal : (s.cleanup now maxAge).totalEntries =
      ∑ i, ((s.shards i).retainYounger now maxAge).entries.length := by
    show s.totalEntries - ((List.finRange defaultJtiShards).map fun i =>
      (s.shards i).entries.length -
        ((s.shards i).retainYounger now maxAge).entries.length).sum = _
    rw [← Fin.sum_univ_def, h.total]
    -- in each shard, what goes and what stays make up what was there
    have hsplit : ∑ i, (s.shards i).entries.length =
        ∑ i, ((s.shards i).entries.length -
            ((s.shards i).retainYounger now maxAge).entries.length) +
          ∑ i, ((s.shards i).retainYounger now maxAge).entries.length := by
      rw [← Finset.sum_add_distrib]
      apply Finset.sum_congr rfl
      intro i _
      exact (Nat.sub_add_cancel ((s.shards i).length_retainYounger_le now maxAge)).symm
    omega
  refine ⟨?_, htotal, ?_⟩
  · intro i key hkey
    obtain ⟨iat, hiat⟩ := KeyedList.mem_keys.mp hkey
    exact h.own i key (KeyedList.mem_keys.mpr ⟨iat, (KeyedList.mem_retain.mp hiat).1⟩)
  · intro max hmax
    have hle : (s.cleanup now maxAge).totalEntries ≤ s.totalEntries := Nat.sub_le _ _
    exact hle.trans (h.bounded max hmax)

/-- An insertion is refused with no change but to the count of refusals, or enters a key that
    its shard does not hold, while there is room. -/
theorem checkAndInsert_cases (s : InMemoryStrictJtiStore) (key : String) (iat : Int64) :
    (∃ e refused, s.checkAndInsert key iat =
        (.error e, { s with rejectedOverCapacity := refused })) ∨
      ∃ hnew, s.checkAndInsert key iat = (.ok (), s.record key iat hnew) ∧
        ∀ max ∈ s.maxEntries, s.totalEntries < max := by
  unfold checkAndInsert
  -- the length, then the room, then the key: the first that fails gives the error
  by_cases hlong : (utf8 key).length > maxJtiLengthBytes
  · rw [if_pos hlong]
    exact .inl ⟨_, _, rfl⟩
  · rw [if_neg hlong]
    cases hfull : s.overCapacity with
    | some max => exact .inl ⟨_, _, rfl⟩
    | none =>
      dsimp only
      by_cases hkey : key ∈ (s.shards (s.shardFor key)).keys
      · rw [dif_pos hkey]
        exact .inl ⟨_, _, rfl⟩
      · rw [dif_neg hkey]
        refine .inr ⟨hkey, rfl, ?_⟩
        intro max hmax
        have hroom := Option.filter_eq_none_iff.mp hfull max hmax
        simpa using hroom

theorem Sound.refused (h : s.Sound) (refused : Nat) :
    { s with rejectedOverCapacity := refused }.Sound := ⟨h.own, h.total, h.bounded⟩

theorem Sound.checkAndInsert (h : s.Sound) (key : String) (iat : Int64) :
    (s.checkAndInsert key iat).2.Sound := by
  cases s.checkAndInsert_cases key iat with
  | inl hrefused =>
    obtain ⟨e, refused, heq⟩ := hrefused
    rw [heq]
    exact h.refused refused
  | inr hnew =>
    obtain ⟨hnew, heq, hroom⟩ := hnew
    rw [heq]
    exact h.record hroom

theorem Sound.call (h : s.Sound) (op : StrictJtiOp) : (s.call op).2.Sound := by
  cases op with
  | shared op =>
    cases op with
    | checkAndInsert key iat => exact h.checkAndInsert key iat
    | cleanup now maxAge => exact h.cleanup now.secs maxAge
  | cleanupExpired now => exact h.cleanup now.secs s.freshnessWindowSeconds

theorem Sound.after (h : s.Sound) (ops : List StrictJtiOp) : (s.after ops).Sound :=
  after_induction h (fun _ op hs => hs.call op) ops

/-! ## What a run retains -/

/-- The bound and the window stay. -/
theorem call_settings (s : InMemoryStrictJtiStore) (op : StrictJtiOp) :
    (s.call op).2.maxEntries = s.maxEntries ∧
      (s.call op).2.freshnessWindowSeconds = s.freshnessWindowSeconds := by
  cases op with
  | shared op =>
    cases op with
    | checkAndInsert key iat =>
      cases s.checkAndInsert_cases key iat with
      | inl hrefused =>
        obtain ⟨e, refused, heq⟩ := hrefused
        rw [call, exec, heq]
        exact ⟨rfl, rfl⟩
      | inr hnew =>
        obtain ⟨hnew, heq, -⟩ := hnew
        rw [call, exec, heq]
        exact ⟨rfl, rfl⟩
    | cleanup now maxAge => exact ⟨rfl, rfl⟩
  | cleanupExpired now => exact ⟨rfl, rfl⟩

theorem after_settings (s : InMemoryStrictJtiStore) (ops : List StrictJtiOp) :
    (s.after ops).maxEntries = s.maxEntries ∧
      (s.after ops).freshnessWindowSeconds = s.freshnessWindowSeconds := by
  refine after_induction (I := fun t => t.maxEntries = s.maxEntries ∧
    t.freshnessWindowSeconds = s.freshnessWindowSeconds) ⟨rfl, rfl⟩ ?_ ops
  intro t op ht
  obtain ⟨hmax, hwindow⟩ := t.call_settings op
  exact ⟨hmax.trans ht.1, hwindow.trans ht.2⟩

theorem holds_cleanup_clock {now : ClockReading} {maxAge : Int64} :
    (s.cleanup now.secs maxAge).Holds key iat ↔
      s.Holds key iat ∧ now.secs.toInt - iat.toInt < maxAge.toInt :=
  JtiEntries.mem_retainYounger_clock

/-- Only a cleanup drops an entry, and only at the age it asks for. -/
theorem Holds.call (h : s.Holds key iat) (op : StrictJtiOp) :
    (s.call op).2.Holds key iat ∨ op.Reaches s.freshnessWindowSeconds iat := by
  cases op with
  | shared op =>
    cases op with
    | checkAndInsert k i =>
      left
      cases s.checkAndInsert_cases k i with
      | inl hrefused =>
        obtain ⟨e, refused, heq⟩ := hrefused
        rw [InMemoryStrictJtiStore.call, exec, heq]
        exact h
      | inr hnew =>
        obtain ⟨hnew, heq, -⟩ := hnew
        rw [InMemoryStrictJtiStore.call, exec, heq]
        exact holds_record.mpr (.inr h)
    | cleanup now maxAge =>
      by_cases hage : maxAge.toInt ≤ now.secs.toInt - iat.toInt
      · exact .inr hage
      · exact .inl (holds_cleanup_clock.mpr ⟨h, Int.not_le.mp hage⟩)
  | cleanupExpired now =>
    by_cases hage : s.freshnessWindowSeconds.toInt ≤ now.secs.toInt - iat.toInt
    · exact .inr hage
    · exact .inl (holds_cleanup_clock.mpr ⟨h, Int.not_le.mp hage⟩)

/-- An entry outlives a run that has no such cleanup. -/
theorem Holds.after (h : s.Holds key iat) (ops : List StrictJtiOp) :
    (s.after ops).Holds key iat ∨ ∃ op ∈ ops, op.Reaches s.freshnessWindowSeconds iat := by
  induction ops generalizing s with
  | nil => exact .inl h
  | cons op ops ih =>
    cases h.call op with
    | inr hreached => exact .inr ⟨op, List.mem_cons_self, hreached⟩
    | inl hheld =>
      cases ih hheld with
      | inl hend => exact .inl hend
      | inr hlater =>
        obtain ⟨op', hop', hreached⟩ := hlater
        rw [(s.call_settings op).2] at hreached
        exact .inr ⟨op', List.mem_cons_of_mem op hop', hreached⟩

/-- **The strict store over every run**: the counter is the number of keys retained, within
    the bound; a key is not accepted again before a cleanup has reached the age of its entry;
    and an error leaves the shards and the counter as they were.

    The counter is kept beside the shards, so that it agrees with them is an invariant of runs and
    not true by definition. Nothing is ever driven out: a key is forgotten in a cleanup, and only at
    an age that has reached its bound. -/
theorem strictStore_run (hash : String → UInt64) (window : Int64) (maxEntries : Option Nat)
    (ops : List StrictJtiOp) :
    (((build hash window maxEntries).after ops).totalEntries =
          ((build hash window maxEntries).after ops).retainedKeys.card ∧
        ∀ max ∈ maxEntries, ((build hash window maxEntries).after ops).totalEntries ≤ max) ∧
      (∀ key iat iat' between,
        (((build hash window maxEntries).after ops).checkAndInsert key iat).1 = .ok () →
        (((build hash window maxEntries).after
          (ops ++ .shared (.checkAndInsert key iat) :: between)).checkAndInsert key iat').1 =
            .ok () →
        ∃ op ∈ between, op.Reaches window iat) ∧
      ∀ key iat e, (((build hash window maxEntries).after ops).checkAndInsert key iat).1 =
          .error e →
        (((build hash window maxEntries).after ops).checkAndInsert key iat).2.shards =
            ((build hash window maxEntries).after ops).shards ∧
          (((build hash window maxEntries).after ops).checkAndInsert key iat).2.totalEntries =
            ((build hash window maxEntries).after ops).totalEntries := by
  have hsound := (sound_build hash window maxEntries).after ops
  obtain ⟨hmax, hwindow⟩ := (build hash window maxEntries).after_settings ops
  generalize hs : (build hash window maxEntries).after ops = s at *
  refine ⟨⟨hsound.total_eq_card, ?_⟩, ?_, ?_⟩
  · intro max hm
    exact hsound.bounded max (hmax ▸ hm)
  · intro key iat iat' between hfirst hsecond
    rw [after_append, after_cons, hs] at hsecond
    have haccepted : s.checkAndInsert key iat = (.ok (), (s.checkAndInsert key iat).2) :=
      Prod.ext hfirst rfl
    have hheld : (s.checkAndInsert key iat).2.Holds key iat :=
      ((checkAndInsert_ok haccepted).2.2 key iat).mpr (.inl rfl)
    cases hheld.after between with
    | inr hreached =>
      rw [(checkAndInsert_ok haccepted).2.1, hwindow] at hreached
      exact hreached
    | inl hstill =>
      -- the entry is still there, so the second insertion is a replay
      exact absurd hstill ((checkAndInsert_ok (Prod.ext hsecond rfl)).1 iat)
  · intro key iat e herror
    obtain ⟨hshards, -, -⟩ := checkAndInsert_error (Prod.ext herror rfl)
    refine ⟨hshards, ?_⟩
    cases s.checkAndInsert_cases key iat with
    | inl hrefused =>
      obtain ⟨e', refused, heq⟩ := hrefused
      rw [heq]
    | inr hnew =>
      obtain ⟨hnew, heq, -⟩ := hnew
      rw [heq] at herror
      exact absurd herror (by simp)

end InMemoryStrictJtiStore

end Cat
