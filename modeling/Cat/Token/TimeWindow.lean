import Cat.Token.Composites

/-!
# The time window of a token

A token's times are checked with tolerances that are added in 64 bits. Where a sum leaves the
range the token is refused, so the window is the one of exact integers: from `nbf -
nbf_tolerance` on, until `exp + exp_tolerance`. The last instant belongs to it, against
`TokenExpired`, which is meant for an `exp` "at or before the current time".

Both sums are of a time that an issuer wrote and of a tolerance that is not negative, so each
can leave the range on one side only. There the exact sum would let every clock reading pass,
and the code refuses. With the sums in integers nothing remains of 64 bits in the statement, and
the boundary is all there is to talk about.
-/

set_option autoImplicit false

namespace Cat

open Cbor

def CatToken.withTimes (t : CatToken) (exp nbf : Option Int64) : CatToken :=
  { t with core := { t.core with exp, nbf } }

/-- The number is an `i64`. -/
def FitsI64 (n : Int) : Prop := -2 ^ 63 ≤ n ∧ n < 2 ^ 63

namespace CatTokenValidator

/-- The first two checks of `validate_with_provenance`. -/
def validateTimes (v : CatTokenValidator) (now : Int64) (token : CatToken) :
    Except CatError Unit := do
  v.validateExp now token
  v.validateNbf now token

variable {v : CatTokenValidator} {now exp nbf : Int64} {t : CatToken} {p : TokenProvenance}

/-- A check against a sum or difference that is made in 64 bits: it fails where that does not
    fit, and says `P` of the exact one where it does. -/
theorem checked_iff {verdict : Except CatError Unit} {n : Int} {P : Int → Prop}
    (hnone : Int64.ofInt? n = none → verdict ≠ .ok ())
    (hsome : ∀ bound, Int64.ofInt? n = some bound → (verdict = .ok () ↔ P bound.toInt)) :
    verdict = .ok () ↔ FitsI64 n ∧ P n := by
  cases hbound : Int64.ofInt? n with
  | none =>
    constructor
    · intro h
      exact absurd h (hnone hbound)
    · intro h
      exact absurd h.1 (Int64.ofInt?_eq_none.mp hbound)
  | some bound =>
    have heq := Int64.ofInt?_eq_some.mp hbound
    have hfits : FitsI64 n := heq ▸ ⟨bound.le_toInt, bound.toInt_lt⟩
    rw [hsome bound hbound, heq]
    constructor
    · intro h
      exact ⟨hfits, h⟩
    · intro h
      exact h.2

/-- A verdict that is an error just where the bound has been passed. -/
theorem refused_iff {late : Prop} [Decidable late] {e : CatError} :
    (if late then Except.error e else Except.ok ()) = .ok () ↔ ¬late := by
  rw [← and_iff_left (a := ¬late) (rfl : () = ())]
  exact Except.check_eq_ok

theorem validateExp_withTimes {o : Option Int64} :
    v.validateExp now (t.withTimes (some exp) o) = .ok () ↔
      FitsI64 (exp.toInt + v.expTolerance.toInt) ∧
        now.toInt ≤ exp.toInt + v.expTolerance.toInt := by
  apply checked_iff (P := fun bound => now.toInt ≤ bound)
  · intro hsum
    simp [validateExp, CatToken.withTimes, Int64.checkedAdd, hsum]
  · intro effectiveExp hsum
    simp only [validateExp, CatToken.withTimes, Int64.checkedAdd, hsum]
    rw [refused_iff, gt_iff_lt, Int64.not_lt, Int64.le_iff_toInt_le]

theorem validateNbf_withTimes {o : Option Int64} :
    v.validateNbf now (t.withTimes o (some nbf)) = .ok () ↔
      FitsI64 (nbf.toInt - v.nbfTolerance.toInt) ∧
        nbf.toInt - v.nbfTolerance.toInt ≤ now.toInt := by
  apply checked_iff (P := fun bound => bound ≤ now.toInt)
  · intro hdiff
    simp [validateNbf, CatToken.withTimes, Int64.checkedSub, hdiff]
  · intro effectiveNbf hdiff
    simp only [validateNbf, CatToken.withTimes, Int64.checkedSub, hdiff]
    rw [refused_iff, Int64.not_lt, Int64.le_iff_toInt_le]

theorem validateTimes_eq_ok : v.validateTimes now t = .ok () ↔
    v.validateExp now t = .ok () ∧ v.validateNbf now t = .ok () := by
  simp only [← Except.isOk_iff, validateTimes, Except.isOk_bind, Bool.and_eq_true]

theorem validateTimes_withTimes :
    v.validateTimes now (t.withTimes (some exp) (some nbf)) = .ok () ↔
      (FitsI64 (exp.toInt + v.expTolerance.toInt) ∧
          now.toInt ≤ exp.toInt + v.expTolerance.toInt) ∧
        FitsI64 (nbf.toInt - v.nbfTolerance.toInt) ∧
          nbf.toInt - v.nbfTolerance.toInt ≤ now.toInt := by
  rw [validateTimes_eq_ok, validateExp_withTimes, validateNbf_withTimes]

/-- The times are judged on their own: the rest of the validation does not look at them. -/
theorem validate_withTimes (v : CatTokenValidator) (now exp nbf : Int64) (t : CatToken)
    (p : TokenProvenance) :
    v.validateWithProvenance now p (t.withTimes (some exp) (some nbf)) = .ok () ↔
      v.validateTimes now (t.withTimes (some exp) (some nbf)) = .ok () ∧
        v.validateWithProvenance now p (t.withTimes none none) = .ok () := by
  rw [validateWithProvenance_eq, validateWithProvenance_eq, Except.bind_eq_ok, Except.bind_eq_ok,
    validateTimes_eq_ok]
  constructor
  · intro h
    obtain ⟨u, hclaims, hcomposites⟩ := h
    obtain ⟨hexp, hnbf, hrest⟩ := validateClaims_eq_ok.mp hclaims
    exact ⟨⟨hexp, hnbf⟩, u, validateClaims_eq_ok.mpr ⟨rfl, rfl, hrest⟩, hcomposites⟩
  · intro h
    obtain ⟨⟨hexp, hnbf⟩, u, hclaims, hcomposites⟩ := h
    obtain ⟨-, -, hrest⟩ := validateClaims_eq_ok.mp hclaims
    exact ⟨u, validateClaims_eq_ok.mpr ⟨hexp, hnbf, hrest⟩, hcomposites⟩

/-- **The window of exact integers, but for its last instant**: a token with an `exp` that is
    just now reached, tolerance included, is not expired yet.

    The code computes in 64 bits and checks for overflow; the window is one of integers without
    bound, so nothing is lost there. The difference is in one comparison: what the error calls
    expired includes the instant of `exp`, and the comparison leaves it out. -/
theorem timeWindow_iff (v : CatTokenValidator) (now exp nbf : Int64) (t : CatToken)
    (p : TokenProvenance) :
    ((v.validateWithProvenance now p (t.withTimes (some exp) (some nbf)) = .ok () ↔
          v.validateTimes now (t.withTimes (some exp) (some nbf)) = .ok () ∧
            v.validateWithProvenance now p (t.withTimes none none) = .ok ()) ∧
        (FitsI64 (exp.toInt + v.expTolerance.toInt) ∧
            FitsI64 (nbf.toInt - v.nbfTolerance.toInt) →
          (v.validateTimes now (t.withTimes (some exp) (some nbf)) = .ok () ↔
            nbf.toInt - v.nbfTolerance.toInt ≤ now.toInt ∧
              now.toInt < exp.toInt + v.expTolerance.toInt)) ∧
        (¬(FitsI64 (exp.toInt + v.expTolerance.toInt) ∧
            FitsI64 (nbf.toInt - v.nbfTolerance.toInt)) →
          v.validateTimes now (t.withTimes (some exp) (some nbf)) ≠ .ok ())) ↔
      ¬(now.toInt = exp.toInt + v.expTolerance.toInt ∧
        -2 ^ 63 ≤ nbf.toInt - v.nbfTolerance.toInt ∧
        nbf.toInt - v.nbfTolerance.toInt ≤ now.toInt) := by
  have hnow := now.toInt_lt
  have hnow' := now.le_toInt
  constructor
  · intro h hlast
    -- a sum that equals the current time fits, and the check lets that instant pass
    have hfits : FitsI64 (exp.toInt + v.expTolerance.toInt) ∧
        FitsI64 (nbf.toInt - v.nbfTolerance.toInt) := by
      unfold FitsI64
      omega
    have haccepted : v.validateTimes now (t.withTimes (some exp) (some nbf)) = .ok () :=
      validateTimes_withTimes.mpr ⟨⟨hfits.1, by omega⟩, hfits.2, by omega⟩
    have hbefore := ((h.2.1 hfits).mp haccepted).2
    omega
  · intro hlast
    refine ⟨validate_withTimes v now exp nbf t p, ?_, ?_⟩
    · intro hfits
      rw [validateTimes_withTimes]
      constructor
      · intro haccepted
        have hnot : now.toInt ≠ exp.toInt + v.expTolerance.toInt := by
          intro heq
          exact hlast ⟨heq, hfits.2.1, haccepted.2.2⟩
        omega
      · intro hwindow
        exact ⟨⟨hfits.1, by omega⟩, hfits.2, hwindow.1⟩
    · intro hfits haccepted
      have htimes := validateTimes_withTimes.mp haccepted
      exact hfits ⟨htimes.1.1, htimes.2.1⟩

/-- At zero tolerance, at the second 100, a token with the `exp` 100 is accepted. -/
theorem timeWindow_last_instant :
    dangerouslyAnyIssuer.validate 100 (CatToken.new.withTimes (some 100) (some 0)) = .ok () ∧
      dangerouslyAnyIssuer.validateTimes 100 (CatToken.new.withTimes (some 100) (some 0)) =
        .ok () ∧
      ¬((100 : Int64).toInt < (100 : Int64).toInt + dangerouslyAnyIssuer.expTolerance.toInt) := by
  refine ⟨?_, ?_, ?_⟩
  · decide +kernel
  · decide +kernel
  · decide +kernel

end CatTokenValidator
end Cat
