import Cat.Lib.FloatInt
import Cat.Token.Enforce
import Mathlib.Data.Rat.Cast.Order
import Mathlib.Tactic.Linarith

/-!
# Rejection by chance

`catpor` rejects a token when a random fraction is below the claim's probability, and lists its
id, so that it is rejected from then on without a draw. The laws of such a claim (`CatporLaws`):
probability one always rejects, zero never does by itself, an id that is listed is rejected
until its entry expires, and more probability never saves a token.

All but the first hold whatever the draw. The fraction is a draw over the greatest draw, so it
reaches one, and one is not below the probability one: that draw lets the token through
(`catporLaws_iff`). In doubles the 1024 greatest draws do.

How a draw is compared with a probability is a parameter of the laws, so that they can be asked
of the exact fraction and of the doubles that the source computes with. Between the two lies one
division and its rounding: a draw is turned into the nearest double first, and near the top of
the range the doubles are 2048 apart.
-/

set_option autoImplicit false

namespace F64

/-- The exact value of a finite double. -/
def toRat (f : F64) : ℚ := f.scaled / 2 ^ 1074

theorem toRat_le {p q : F64} : p.toRat ≤ q.toRat ↔ p.scaled ≤ q.scaled := by
  unfold toRat
  rw [div_le_div_iff_of_pos_right (by positivity)]
  exact Int.cast_le

theorem toRat_eq_one {p : F64} : p.toRat = 1 ↔ p.scaled = 2 ^ 1074 := by
  unfold toRat
  have hcast : (2 : ℚ) ^ 1074 = ((2 ^ 1074 : Int) : ℚ) := by rw [Int.cast_pow, Int.cast_ofNat]
  rw [div_eq_one_iff_eq (by positivity), hcast, Int.cast_inj]

theorem toRat_eq_zero {p : F64} : p.toRat = 0 ↔ p.scaled = 0 := by
  unfold toRat
  rw [div_eq_zero_iff]
  simp

end F64

namespace Cat

open Cbor

/-! ## Draws -/

/-- The draw as a fraction of the greatest one, `u64::MAX`. -/
def drawFraction (draw : UInt64) : ℚ := draw.toNat / (2 ^ 64 - 1)

/-- The comparison of `enforce_catpor` in exact arithmetic. -/
def exactlyBelow (draw : UInt64) (p : F64) : Bool :=
  !p.isNan && decide (drawFraction draw < p.toRat)

/-- The comparison as it is made, in doubles. -/
def doubleBelow (draw : UInt64) (p : F64) : Bool := F64.lt (catporVariate draw) p

/-- What a comparison of draws with probabilities does: nothing is below zero, what is below
    some probability is below a greater one, and all draws but those in `top` are below one. -/
structure DrawTest (below : UInt64 → F64 → Bool) (top : UInt64 → Prop) : Prop where
  zero : ∀ d p, p.scaled ≤ 0 → below d p = false
  mono : ∀ d p q, q.isNan = false → p.scaled ≤ q.scaled → below d p = true → below d q = true
  one : ∀ d p, p.isNan = false → p.scaled = 2 ^ 1074 → (below d p = true ↔ ¬top d)

theorem drawFraction_nonneg (d : UInt64) : 0 ≤ drawFraction d := by
  unfold drawFraction
  apply div_nonneg
  · exact Nat.cast_nonneg _
  · norm_num

theorem exactlyBelow_iff {d : UInt64} {p : F64} (hp : p.isNan = false) :
    exactlyBelow d p = true ↔ drawFraction d < p.toRat := by
  simp [exactlyBelow, hp]

theorem exactlyBelow_drawTest : DrawTest exactlyBelow (fun d => d = 0xFFFFFFFFFFFFFFFF) where
  zero := by
    intro d p hp
    by_contra hbelow
    rw [Bool.not_eq_false, exactlyBelow, Bool.and_eq_true, decide_eq_true_iff] at hbelow
    have hneg : p.toRat ≤ 0 := by
      apply div_nonpos_of_nonpos_of_nonneg
      · exact_mod_cast hp
      · positivity
    exact absurd hbelow.2 (not_lt.mpr (hneg.trans (drawFraction_nonneg d)))
  mono := by
    intro d p q hq hpq hbelow
    rw [exactlyBelow, Bool.and_eq_true, decide_eq_true_iff] at hbelow
    rw [exactlyBelow_iff hq]
    exact hbelow.2.trans_le (F64.toRat_le.mpr hpq)
  one := by
    intro d p hp hone
    rw [exactlyBelow_iff hp]
    have hvalue : p.toRat = 1 := F64.toRat_eq_one.mpr hone
    have hlt : (d.toNat : ℚ) < 2 ^ 64 - 1 ↔ d.toNat < 2 ^ 64 - 1 := by
      rw [show (2 ^ 64 - 1 : ℚ) = ((2 ^ 64 - 1 : Nat) : ℚ) by norm_num]
      exact Nat.cast_lt
    rw [hvalue, drawFraction, div_lt_one₀ (by norm_num), hlt, ← UInt64.toNat_inj]
    have hd := d.toNat_lt
    show d.toNat < 2 ^ 64 - 1 ↔ ¬d.toNat = 2 ^ 64 - 1
    omega

theorem scaled_catporVariate (d : UInt64) :
    (catporVariate d).isNan = false ∧
      (catporVariate d).scaled = F64.roundNat d.toNat * 2 ^ 1010 :=
  F64.divPow2_ofInt d.toNat_lt (by decide)

theorem doubleBelow_drawTest : DrawTest doubleBelow (fun d => 2 ^ 64 - 1024 ≤ d.toNat) where
  zero := by
    intro d p hp
    obtain ⟨hnan, hscaled⟩ := scaled_catporVariate d
    have hnonneg : (0 : Int) ≤ F64.roundNat d.toNat * 2 ^ 1010 :=
      Int.mul_nonneg (Int.natCast_nonneg _) (Int.le_of_lt (F64.two_pow_pos _))
    by_contra hbelow
    rw [Bool.not_eq_false, doubleBelow, F64.lt, Bool.and_eq_true, decide_eq_true_iff,
      hscaled] at hbelow
    exact absurd (hnonneg.trans_lt hbelow.2) (not_lt.mpr hp)
  mono := by
    intro d p q hq hpq hbelow
    rw [doubleBelow, F64.lt, Bool.and_eq_true, decide_eq_true_iff] at hbelow
    rw [doubleBelow, F64.lt_eq_true (scaled_catporVariate d).1 hq]
    exact hbelow.2.trans_le hpq
  one := by
    intro d p hp hone
    obtain ⟨hnan, hscaled⟩ := scaled_catporVariate d
    rw [doubleBelow, F64.lt_eq_true hnan hp, hscaled, hone,
      show (2 : Int) ^ 1074 = 2 ^ 64 * 2 ^ 1010 from by rw [← pow_add],
      mul_lt_mul_iff_of_pos_right (F64.two_pow_pos _)]
    have hround := F64.roundNat_lt_iff d.toNat_lt
    rw [show ((F64.roundNat d.toNat : Int) < 2 ^ 64) ↔ F64.roundNat d.toNat < 2 ^ 64 from by
      exact_mod_cast Iff.rfl, hround]
    omega

/-! ## The block list -/

namespace CatPorBlockList

/-- What the list has for an id. -/
def entry (l : CatPorBlockList) (id : Bytes) : Option (Option Int64) :=
  (l.shards (l.shardFor id)).peek id

/-- Each shard has room for an entry. -/
def Roomy (l : CatPorBlockList) : Prop := ∀ i, 0 < (l.shards i).cap

theorem roomy_withCapacity (hash : Bytes → UInt64) (capacity : Nat) :
    (withCapacity hash capacity).Roomy := fun _ => Nat.le_max_right _ 1

variable {l : CatPorBlockList} {now : Int64} {id id' : Bytes} {expiration : Option Int64}

theorem isBlocked_iff : (l.isBlocked now id).1 = true ↔
    ∃ expiration, l.entry id = some expiration ∧ inForce now expiration = true := by
  unfold isBlocked entry
  dsimp only
  rw [Lru.get_fst]
  cases (l.shards (l.shardFor id)).peek id with
  | none => simp
  | some expiration => simp

/-- A lookup changes no entry. -/
theorem entry_isBlocked : (l.isBlocked now id).2.entry id' = l.entry id' := by
  show (Function.update l.shards (l.shardFor id) ((l.shards (l.shardFor id)).get id).2
    (l.shardFor id')).peek id' = l.entry id'
  by_cases hshard : l.shardFor id' = l.shardFor id
  · rw [hshard, Function.update_self, Lru.peek_get, entry, hshard]
  · rw [Function.update_of_ne hshard]
    rfl

theorem entry_add_self (h : l.Roomy) : (l.add id expiration).entry id = some expiration := by
  show (Function.update l.shards (l.shardFor id) _ (l.shardFor id)).peek id = _
  rw [Function.update_self]
  exact Lru.peek_put_self (h _)

/-- An added entry leaves another one as it is, or drives it out. -/
theorem entry_add_of_ne (h : id' ≠ id) :
    (l.add id expiration).entry id' = l.entry id' ∨ (l.add id expiration).entry id' = none := by
  show (Function.update l.shards (l.shardFor id) _ (l.shardFor id')).peek id' = _ ∨
    (Function.update l.shards (l.shardFor id) _ (l.shardFor id')).peek id' = none
  by_cases hshard : l.shardFor id' = l.shardFor id
  · rw [hshard, Function.update_self, entry, hshard]
    exact Lru.peek_put_of_ne h
  · rw [Function.update_of_ne hshard]
    exact .inl rfl

theorem Roomy.isBlocked (h : l.Roomy) : (l.isBlocked now id).2.Roomy := by
  intro i
  show 0 < (Function.update l.shards (l.shardFor id)
    ((l.shards (l.shardFor id)).get id).2 i).cap
  by_cases hi : i = l.shardFor id
  · subst hi
    rw [Function.update_self, Lru.get_cap]
    exact h _
  · rw [Function.update_of_ne hi]
    exact h i

theorem Roomy.add (h : l.Roomy) : (l.add id expiration).Roomy := by
  intro i
  show 0 < (Function.update l.shards (l.shardFor id) _ i).cap
  by_cases hi : i = l.shardFor id
  · subst hi
    rw [Function.update_self]
    exact h (l.shardFor id)
  · rw [Function.update_of_ne hi]
    exact h i

end CatPorBlockList

/-! ## Enforcement -/

/-- `enforce_catpor` over a comparison of draws. -/
def enforceCatporWith (below : UInt64 → F64 → Bool) (env : Ambient) (token : CatToken)
    (blockList : CatPorBlockList) : Except CatError Unit × CatPorBlockList :=
  match token.cat.catpor with
  | none => (.ok (), blockList)
  | some catpor =>
    match blockList.isBlocked env.utcNow catpor.id with
    | (true, blockList) => (.error .rejectedByProbability, blockList)
    | (false, blockList) =>
      match env.draw with
      | none => (.error (.keyOperationFailed "RNG failed"), blockList)
      | some draw =>
        if below draw catpor.probability then
          (.error .rejectedByProbability, blockList.add catpor.id catpor.expiration)
        else (.ok (), blockList)

theorem enforceCatpor_eq : enforceCatpor = enforceCatporWith doubleBelow := rfl

/-- With these eight random bytes. -/
def Ambient.drawing (env : Ambient) (draw : UInt64) : Ambient := { env with draw := some draw }

def CatToken.withProbabilityOfRejection (t : CatToken) (probability : F64) (id : Bytes)
    (expiration : Option Int64) : CatToken :=
  { t with cat := { t.cat with catpor := some ⟨probability, id, expiration⟩ } }

section
variable {below : UInt64 → F64 → Bool} {top : UInt64 → Prop} {env : Ambient} {t : CatToken}
  {l : CatPorBlockList} {p : F64} {id : Bytes} {expiration : Option Int64} {draw : UInt64}

theorem enforceCatporWith_blocked {catpor : ProbabilityOfRejection}
    (hcatpor : t.cat.catpor = some catpor) (h : (l.isBlocked env.utcNow catpor.id).1 = true) :
    enforceCatporWith below env t l =
      (.error .rejectedByProbability, (l.isBlocked env.utcNow catpor.id).2) := by
  unfold enforceCatporWith
  rw [hcatpor]
  dsimp only
  rw [show l.isBlocked env.utcNow catpor.id = (true, (l.isBlocked env.utcNow catpor.id).2) from
    Prod.ext h rfl]

theorem enforceCatporWith_drawn {catpor : ProbabilityOfRejection}
    (hcatpor : t.cat.catpor = some catpor) (h : (l.isBlocked env.utcNow catpor.id).1 = false)
    (hdraw : env.draw = some draw) :
    enforceCatporWith below env t l =
      if below draw catpor.probability then
        (.error .rejectedByProbability,
          (l.isBlocked env.utcNow catpor.id).2.add catpor.id catpor.expiration)
      else (.ok (), (l.isBlocked env.utcNow catpor.id).2) := by
  unfold enforceCatporWith
  rw [hcatpor]
  dsimp only
  rw [show l.isBlocked env.utcNow catpor.id = (false, (l.isBlocked env.utcNow catpor.id).2) from
    Prod.ext h rfl, hdraw]

/-- One enforcement, for whatever token, leaves an entry that is in force as it is, unless it
    drives it out. -/
theorem entry_enforceCatporWith (hentry : l.entry id = some expiration)
    (hforce : CatPorBlockList.inForce env.utcNow expiration = true)
    (hstays : (enforceCatporWith below env t l).2.entry id ≠ none) :
    (enforceCatporWith below env t l).2.entry id = some expiration := by
  cases hcatpor : t.cat.catpor with
  | none =>
    unfold enforceCatporWith
    rw [hcatpor]
    exact hentry
  | some catpor =>
    have hlooked : (l.isBlocked env.utcNow catpor.id).2.entry id = some expiration := by
      rw [CatPorBlockList.entry_isBlocked, hentry]
    cases hblocked : (l.isBlocked env.utcNow catpor.id).1 with
    | true =>
      rw [enforceCatporWith_blocked hcatpor hblocked]
      exact hlooked
    | false =>
      -- the token's id is another one, whose entry may be new
      have hne : id ≠ catpor.id := by
        intro heq
        rw [heq] at hentry
        have hin := CatPorBlockList.isBlocked_iff.mpr ⟨expiration, hentry, hforce⟩
        rw [hblocked] at hin
        exact absurd hin (by simp)
      cases hdraw : env.draw with
      | none =>
        unfold enforceCatporWith
        rw [hcatpor]
        dsimp only
        rw [show l.isBlocked env.utcNow catpor.id =
          (false, (l.isBlocked env.utcNow catpor.id).2) from Prod.ext hblocked rfl, hdraw]
        exact hlooked
      | some draw =>
        rw [enforceCatporWith_drawn hcatpor hblocked hdraw] at hstays ⊢
        split
        · rw [if_pos ‹_›] at hstays
          have hadded := @CatPorBlockList.entry_add_of_ne (l.isBlocked env.utcNow catpor.id).2
            catpor.id id catpor.expiration hne
          cases hadded with
          | inl hsame => exact hsame.trans hlooked
          | inr hgone => exact absurd hgone hstays
        · exact hlooked

/-- Enforcements one after the other, each for a token of its own. -/
def afterEnforcing (below : UInt64 → F64 → Bool) (l : CatPorBlockList)
    (calls : List (Ambient × CatToken)) : CatPorBlockList :=
  calls.foldl (fun l c => (enforceCatporWith below c.1 c.2 l).2) l

/-- An entry outlives the enforcements that find it in force and do not drive it out. -/
theorem entry_afterEnforcing (calls : List (Ambient × CatToken))
    (hentry : l.entry id = some expiration)
    (hcalls : ∀ as c bs, calls = as ++ c :: bs →
      CatPorBlockList.inForce c.1.utcNow expiration = true ∧
        (afterEnforcing below l (as ++ [c])).entry id ≠ none) :
    (afterEnforcing below l calls).entry id = some expiration := by
  induction calls generalizing l with
  | nil => exact hentry
  | cons c calls ih =>
    obtain ⟨hforce, hstays⟩ := hcalls [] c calls rfl
    apply ih (entry_enforceCatporWith hentry hforce hstays)
    intro as c' bs heq
    exact hcalls (c :: as) c' bs (by rw [heq, List.cons_append])

/-- An enforcement takes no shard its room. -/
theorem roomy_enforceCatporWith (h : l.Roomy) : (enforceCatporWith below env t l).2.Roomy := by
  unfold enforceCatporWith
  split
  · exact h
  · rename_i catpor _
    have hlooked : (l.isBlocked env.utcNow catpor.id).2.Roomy := h.isBlocked
    split
    · rename_i heq
      rw [heq] at hlooked
      exact hlooked
    · rename_i heq
      rw [heq] at hlooked
      split
      · exact hlooked
      · split
        · exact hlooked.add
        · exact hlooked

/-- Nor do any number of them, so a list has the room it was made with. -/
theorem roomy_afterEnforcing (calls : List (Ambient × CatToken)) (h : l.Roomy) :
    (afterEnforcing below l calls).Roomy := by
  induction calls generalizing l with
  | nil => exact h
  | cons c calls ih => exact ih (roomy_enforceCatporWith h)

/-! ## The laws -/

/-- What is expected of `catpor`, at one state of the list, one time and one draw. -/
structure CatporLaws (below : UInt64 → F64 → Bool) (l : CatPorBlockList) (env : Ambient)
    (draw : UInt64) (t : CatToken) (id : Bytes) (expiration : Option Int64) : Prop where
  /-- Probability one rejects, and the id is listed then: by this token, or still. -/
  one : ∀ p : F64, p.isNan = false → p.toRat = 1 →
    ∃ l', enforceCatporWith below (env.drawing draw)
        (t.withProbabilityOfRejection p id expiration) l = (.error .rejectedByProbability, l') ∧
      ∃ e, l'.entry id = some e ∧
        (e = expiration ∨ CatPorBlockList.inForce env.utcNow e = true)
  /-- Probability zero rejects nothing that is not blocked. -/
  zero : ∀ p : F64, p.isNan = false → p.toRat = 0 → (l.isBlocked env.utcNow id).1 = false →
    (enforceCatporWith below (env.drawing draw)
      (t.withProbabilityOfRejection p id expiration) l).1 = .ok ()
  /-- A listed id is rejected, whatever the token and the draw, as long as its entry is in
      force and has not been driven out. -/
  blocked : ∀ (e : Option Int64) (calls : List (Ambient × CatToken)),
    l.entry id = some e →
    (∀ as c bs, calls = as ++ c :: bs → CatPorBlockList.inForce c.1.utcNow e = true ∧
      (afterEnforcing below l (as ++ [c])).entry id ≠ none) →
    ∀ (later : Ambient) (t' : CatToken) (p : F64) (expiration' : Option Int64),
      CatPorBlockList.inForce later.utcNow e = true →
      (enforceCatporWith below later (t'.withProbabilityOfRejection p id expiration')
        (afterEnforcing below l calls)).1 = .error .rejectedByProbability
  /-- More probability rejects no less. -/
  monotone : ∀ p q : F64, p.isNan = false → q.isNan = false → p.toRat ≤ q.toRat →
    (enforceCatporWith below (env.drawing draw)
      (t.withProbabilityOfRejection p id expiration) l).1 = .error .rejectedByProbability →
    (enforceCatporWith below (env.drawing draw)
      (t.withProbabilityOfRejection q id expiration) l).1 = .error .rejectedByProbability

/-- A token that is drawn for is judged by the comparison alone. -/
theorem enforce_drawing (hopen : (l.isBlocked env.utcNow id).1 = false) :
    enforceCatporWith below (env.drawing draw) (t.withProbabilityOfRejection p id expiration) l =
      if below draw p then
        (.error .rejectedByProbability, (l.isBlocked env.utcNow id).2.add id expiration)
      else (.ok (), (l.isBlocked env.utcNow id).2) := by
  have hopen' : (l.isBlocked (env.drawing draw).utcNow id).1 = false := hopen
  exact enforceCatporWith_drawn (t := t.withProbabilityOfRejection p id expiration) rfl hopen' rfl

theorem rejected_iff (hopen : (l.isBlocked env.utcNow id).1 = false) :
    (enforceCatporWith below (env.drawing draw)
      (t.withProbabilityOfRejection p id expiration) l).1 = .error .rejectedByProbability ↔
      below draw p = true := by
  rw [enforce_drawing hopen]
  split
  · simp [*]
  · simp [*]

/-- An id that is blocked stays so while its entry does. -/
theorem catporLaws_blocked (e : Option Int64) (calls : List (Ambient × CatToken))
    (hentry : l.entry id = some e)
    (hcalls : ∀ as c bs, calls = as ++ c :: bs →
      CatPorBlockList.inForce c.1.utcNow e = true ∧
        (afterEnforcing below l (as ++ [c])).entry id ≠ none)
    (later : Ambient) (t' : CatToken) (p : F64) (expiration' : Option Int64)
    (hforce : CatPorBlockList.inForce later.utcNow e = true) :
    (enforceCatporWith below later (t'.withProbabilityOfRejection p id expiration')
      (afterEnforcing below l calls)).1 = .error .rejectedByProbability := by
  have hend := entry_afterEnforcing calls hentry hcalls
  have hblocked := CatPorBlockList.isBlocked_iff.mpr ⟨e, hend, hforce⟩
  have hrejected : enforceCatporWith below later
      (t'.withProbabilityOfRejection p id expiration') (afterEnforcing below l calls) =
        (.error .rejectedByProbability,
          ((afterEnforcing below l calls).isBlocked later.utcNow id).2) :=
    enforceCatporWith_blocked (t := t'.withProbabilityOfRejection p id expiration') rfl hblocked
  exact congrArg Prod.fst hrejected

/-- **The laws hold, but for the draws that are not below one.** -/
theorem DrawTest.catporLaws_iff (h : DrawTest below top) (hroomy : l.Roomy) :
    CatporLaws below l env draw t id expiration ↔
      (l.isBlocked env.utcNow id).1 = true ∨ ¬top draw := by
  cases hblocked : (l.isBlocked env.utcNow id).1 with
  | true =>
    -- no draw is looked at: each probability is rejected alike
    have hblocked' : (l.isBlocked (env.drawing draw).utcNow id).1 = true := hblocked
    have hrejected (p : F64) : enforceCatporWith below (env.drawing draw)
        (t.withProbabilityOfRejection p id expiration) l =
          (.error .rejectedByProbability, (l.isBlocked env.utcNow id).2) :=
      enforceCatporWith_blocked (t := t.withProbabilityOfRejection p id expiration) rfl hblocked'
    constructor
    · intro _
      exact .inl rfl
    · intro _
      refine ⟨?_, ?_, catporLaws_blocked, ?_⟩
      · intro p _ _
        obtain ⟨e, hentry, hforce⟩ := CatPorBlockList.isBlocked_iff.mp hblocked
        refine ⟨_, hrejected p, e, ?_, .inr hforce⟩
        rw [CatPorBlockList.entry_isBlocked, hentry]
      · intro p _ _ hopen
        rw [hblocked] at hopen
        exact absurd hopen (by simp)
      · intro p q _ _ _ _
        rw [hrejected q]
  | false =>
    constructor
    · intro hlaws
      right
      -- the law for the probability one, at the number one itself, is the test of the draw
      obtain ⟨l', hone, -⟩ := hlaws.one (F64.ofInt 1) (by decide)
        (F64.toRat_eq_one.mpr (by decide +kernel))
      have hbelow := (rejected_iff hblocked).mp (congrArg Prod.fst hone)
      exact (h.one draw (F64.ofInt 1) (by decide) (by decide +kernel)).mp hbelow
    · intro htop
      have hnot : ¬top draw := htop.resolve_left (by simp)
      refine ⟨?_, ?_, catporLaws_blocked, ?_⟩
      · intro p hp hone
        have hbelow := (h.one draw p hp (F64.toRat_eq_one.mp hone)).mpr hnot
        refine ⟨(l.isBlocked env.utcNow id).2.add id expiration, ?_, expiration, ?_, .inl rfl⟩
        · rw [enforce_drawing hblocked, if_pos hbelow]
        · exact CatPorBlockList.entry_add_self hroomy.isBlocked
      · intro p hp hzero _
        have hbelow := h.zero draw p (F64.toRat_eq_zero.mp hzero).le
        rw [enforce_drawing hblocked, if_neg (by simp [hbelow])]
      · intro p q _ hq hpq hrejected
        rw [rejected_iff hblocked] at hrejected ⊢
        exact h.mono draw p q hq (F64.toRat_le.mp hpq) hrejected

/-- **The laws of `catpor`**: in exact arithmetic they hold but for the greatest draw, which is
    all of `u64::MAX`, and in doubles but for the 1024 greatest, which round to one; and for
    these too if the id is blocked already.

    A draw is divided by the greatest that there is, so it can come to one, which is not below a
    probability of one. In doubles the 1024 greatest draws are rounded to the same number before
    they are divided. An id that is blocked is refused without a draw. -/
theorem catpor_laws_iff (l : CatPorBlockList) (hroomy : l.Roomy) (env : Ambient) (draw : UInt64)
    (t : CatToken) (id : Bytes) (expiration : Option Int64) :
    (CatporLaws exactlyBelow l env draw t id expiration ↔
        (l.isBlocked env.utcNow id).1 = true ∨ draw ≠ 0xFFFFFFFFFFFFFFFF) ∧
      (CatporLaws doubleBelow l env draw t id expiration ↔
        (l.isBlocked env.utcNow id).1 = true ∨ draw.toNat < 2 ^ 64 - 1024) := by
  refine ⟨exactlyBelow_drawTest.catporLaws_iff hroomy, ?_⟩
  rw [doubleBelow_drawTest.catporLaws_iff hroomy, Nat.not_le]

end

/-- A list with room for one entry a shard. -/
def smallBlockList : CatPorBlockList := .withCapacity (fun _ => 0) 1

theorem smallBlockList_roomy : smallBlockList.Roomy := CatPorBlockList.roomy_withCapacity _ _

theorem catpor_laws_small :
    (CatporLaws exactlyBelow smallBlockList ⟨0, 0, none⟩ 0 CatToken.new [1] none ↔
        (smallBlockList.isBlocked 0 [1]).1 = true ∨ (0 : UInt64) ≠ 0xFFFFFFFFFFFFFFFF) ∧
      (CatporLaws doubleBelow smallBlockList ⟨0, 0, none⟩ 0 CatToken.new [1] none ↔
        (smallBlockList.isBlocked 0 [1]).1 = true ∨ (0 : UInt64).toNat < 2 ^ 64 - 1024) :=
  catpor_laws_iff smallBlockList smallBlockList_roomy ⟨0, 0, none⟩ 0 CatToken.new [1] none

/-- With the greatest draw a token with the probability one passes. -/
theorem catpor_one_passes :
    ¬CatporLaws exactlyBelow smallBlockList ⟨0, 0, none⟩ 0xFFFFFFFFFFFFFFFF CatToken.new [1] none ∧
      (enforceCatpor ⟨0, 0, some 0xFFFFFFFFFFFFFFFF⟩
        (CatToken.new.withProbabilityOfRejection (F64.ofInt 1) [1] none) smallBlockList).1 =
          .ok () := by
  constructor
  · intro hlaws
    cases (exactlyBelow_drawTest.catporLaws_iff smallBlockList_roomy).mp hlaws with
    | inl hblocked => exact absurd hblocked (by decide +kernel)
    | inr hnot => exact hnot rfl
  · decide +kernel

end Cat
