import Cat.Dpop.Validator
import Cat.Lib.Splitting

/-!
# The store key separates proofs

A proof is entered in the store under its issuer, the thumbprint of its key and its identifier,
joined by colons. The last two are in hexadecimal, which has no colon, so they are what stands
behind the last two colons, whatever the issuer is. An absent issuer is written `_`: this is the
one name it shares its keys with.

Two proofs that share a key deny each other, and only one of them is accepted within the window.
That this happens to proofs of one issuer, key and identifier is the purpose; that it happens to
no others is `commitKey_eq_iff`, with the exception it names. An issuer is any text and may hold
colons itself, so the key cannot be cut from the front: it is cut from behind, twice.
-/

set_option autoImplicit false

namespace Cat

open Cbor

namespace DpopValidator

variable {issuer issuer' : Option String} {thumbprint thumbprint' cti cti' : Bytes}

theorem toList_commitKey : (commitKey issuer thumbprint cti).toList =
    (issuer.getD "_").toList ++ ':' :: Hex.encode thumbprint ++ ':' :: Hex.encode cti := by
  unfold commitKey
  simp

/-- Behind the last colon of a text is the hexadecimal that was put there. -/
theorem rsplitOnce_hex (name : List Char) (bytes : Bytes) :
    List.rsplitOnce ':' (name ++ ':' :: Hex.encode bytes) = some (name, Hex.encode bytes) :=
  List.rsplitOnce_eq_some.mpr ⟨rfl, Hex.colon_not_mem_encode bytes⟩

/-- **The key holds the thumbprint, the identifier, and the issuer under its name.** -/
theorem commitKey_eq_iff :
    commitKey issuer thumbprint cti = commitKey issuer' thumbprint' cti' ↔
      issuer.getD "_" = issuer'.getD "_" ∧ thumbprint = thumbprint' ∧ cti = cti' := by
  constructor
  · intro h
    have hchars := congrArg String.toList h
    rw [toList_commitKey, toList_commitKey] at hchars
    -- hexadecimal has no colon, so the key is cut from behind, whatever the issuer holds
    have houter := congrArg (List.rsplitOnce ':') hchars
    rw [rsplitOnce_hex, rsplitOnce_hex] at houter
    obtain ⟨hrest, hcti⟩ := Prod.mk.inj (Option.some.inj houter)
    have hinner := congrArg (List.rsplitOnce ':') hrest
    rw [rsplitOnce_hex, rsplitOnce_hex] at hinner
    obtain ⟨hissuer, hthumbprint⟩ := Prod.mk.inj (Option.some.inj hinner)
    exact ⟨String.toList_inj.mp hissuer, Hex.encode_injective hthumbprint,
      Hex.encode_injective hcti⟩
  · intro h
    obtain ⟨hissuer, rfl, rfl⟩ := h
    unfold commitKey
    rw [hissuer]

/-- One issuer is absent and the other one is called `_`. -/
def StandIn (issuer issuer' : Option String) : Prop :=
  issuer = none ∧ issuer' = some "_" ∨ issuer = some "_" ∧ issuer' = none

theorem StandIn.ne (h : StandIn issuer issuer') : issuer ≠ issuer' := by
  intro heq
  rw [heq] at h
  cases h with
  | inl h => exact absurd (h.1.symm.trans h.2) (by simp)
  | inr h => exact absurd (h.2.symm.trans h.1) (by simp)

theorem getD_eq_iff : issuer.getD "_" = issuer'.getD "_" ↔
    issuer = issuer' ∨ StandIn issuer issuer' := by
  unfold StandIn
  cases issuer with
  | none =>
    cases issuer' with
    | none => simp
    | some name => simp [eq_comm]
  | some name =>
    cases issuer' with
    | none => simp
    | some name' => simp

theorem dpopCommitKeyForced_separates_iff {H : Host} {proof proof' : DpopProof H} :
    (∀ key,
        (dpopCommitKeyForced proof thumbprint issuer).map Prod.fst = some key →
        (dpopCommitKeyForced proof' thumbprint' issuer').map Prod.fst = some key →
        issuer = issuer' ∧ thumbprint = thumbprint' ∧ proof.payload.cti = proof'.payload.cti) ↔
      ¬(StandIn issuer issuer' ∧ thumbprint = thumbprint' ∧
        ∃ cti, proof.payload.cti = some cti ∧ proof'.payload.cti = some cti) := by
  constructor
  · intro hseparates hbad
    obtain ⟨hstand, rfl, cti, hcti, hcti'⟩ := hbad
    have hsame : commitKey issuer' thumbprint cti = commitKey issuer thumbprint cti :=
      commitKey_eq_iff.mpr ⟨(getD_eq_iff.mpr (.inr hstand)).symm, rfl, rfl⟩
    have hissuer := (hseparates (commitKey issuer thumbprint cti)
      (by rw [dpopCommitKeyForced, hcti]; rfl)
      (by rw [dpopCommitKeyForced, hcti', ← hsame]; rfl)).1
    exact hstand.ne hissuer
  · intro hnot key hkey hkey'
    unfold dpopCommitKeyForced at hkey hkey'
    rw [Option.map_map, Option.map_eq_some_iff] at hkey hkey'
    obtain ⟨cti, hcti, hkey⟩ := hkey
    obtain ⟨cti', hcti', hkey'⟩ := hkey'
    have hsame : commitKey issuer thumbprint cti = commitKey issuer' thumbprint' cti' :=
      hkey.trans hkey'.symm
    obtain ⟨hname, rfl, rfl⟩ := commitKey_eq_iff.mp hsame
    cases getD_eq_iff.mp hname with
    | inl hissuer => exact ⟨hissuer, rfl, hcti.trans hcti'.symm⟩
    | inr hstand => exact absurd ⟨hstand, rfl, cti, hcti, hcti'⟩ hnot

/-- **The key separates proofs**, but for an absent issuer and the issuer `_`: with one
    thumbprint and one identifier these two have one key.

    The parts of the key are put together with colons, and an issuer may have colons in it. It can
    be taken apart all the same, because the two parts behind it are in hex. Only the underscore
    that stands for an absent issuer is something an issuer can be called. -/
theorem dpopCommitKey_separates_iff {σ : Type} {H : Host} (v : DpopValidator σ)
    (proof proof' : DpopProof H) (thumbprint thumbprint' : Bytes)
    (issuer issuer' : Option String) :
    ((∀ key,
        (dpopCommitKeyForced proof thumbprint issuer).map Prod.fst = some key →
        (dpopCommitKeyForced proof' thumbprint' issuer').map Prod.fst = some key →
        issuer = issuer' ∧ thumbprint = thumbprint' ∧ proof.payload.cti = proof'.payload.cti) ↔
      ¬(StandIn issuer issuer' ∧ thumbprint = thumbprint' ∧
        ∃ cti, proof.payload.cti = some cti ∧ proof'.payload.cti = some cti)) ∧
    ((∀ key,
        (v.dpopCommitKey proof thumbprint issuer).map Prod.fst = some key →
        (v.dpopCommitKey proof' thumbprint' issuer').map Prod.fst = some key →
        issuer = issuer' ∧ thumbprint = thumbprint' ∧ proof.payload.cti = proof'.payload.cti) ↔
      ¬(v.settings.shouldHonorJti = true ∧ StandIn issuer issuer' ∧ thumbprint = thumbprint' ∧
        ∃ cti, proof.payload.cti = some cti ∧ proof'.payload.cti = some cti)) := by
  refine ⟨dpopCommitKeyForced_separates_iff, ?_⟩
  unfold dpopCommitKey
  cases v.settings.shouldHonorJti with
  | true =>
    simp only [Bool.not_true, Bool.false_eq_true, if_false, true_and]
    exact dpopCommitKeyForced_separates_iff
  | false => simp

/-- A proof with the identifier `00` has one key without an issuer and under the issuer `_`. -/
theorem commitKey_stand_in :
    commitKey none [1] [0] = commitKey (some "_") [1] [0] ∧ (none : Option String) ≠ some "_" := by
  constructor
  · rfl
  · simp

end DpopValidator
end Cat
