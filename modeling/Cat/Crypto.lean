import Cat.Cwt.Values

/-!
# Signatures

`CryptographicAlgorithm` is the trait object the crate verifies and signs through: a key
together with what is done with it. What it verifies is left open.

The algorithms themselves are third-party crates, so nothing can be proved about them here, and
nothing has to be. What the development needs of a signature is stated where it is needed, as a
hypothesis on the object: that it accepts what its own signer made, or that it accepts nothing
else. The second is a strong one, and each result that has it names it.
-/

set_option autoImplicit false

namespace Cat

open Cbor

def algHmac256_256 : Int64 := 5
def algEs256 : Int64 := -7
def algPs256 : Int64 := -37

structure CryptographicAlgorithm where
  algorithmId : Int64
  sign : Bytes → Except CatError Bytes
  verify : Bytes → Bytes → Except CatError Unit

def coseContextString (algId : Int64) : String :=
  if algId = algHmac256_256 then "MAC0" else "Signature1"

section
variable (H : Host)

def createCoseStructure (context : String) (bodyProtected payload : Bytes) :
    Except CatError Bytes :=
  -- the empty byte string is the external data
  match H.cbor.write (.array [.text context, .bytes bodyProtected, .bytes [], .bytes payload]) with
  | .ok b => .ok b
  | .error e => .error (.invalidCbor e)

/-- The `Sig_structure` or `MAC_structure` that is signed. -/
def createSigningInput (headerProtected payload : Bytes) (algId : Int64) :
    Except CatError Bytes :=
  createCoseStructure H (coseContextString algId) headerProtected payload

end

/-- `constant_time_eq`, by its result: the accumulated difference is zero. -/
def constantTimeEq (a b : Bytes) : Bool :=
  a.length == b.length &&
    (List.zip a b).foldl (fun diff p => diff ||| (p.1 ^^^ p.2)) (0 : UInt8) == 0

private theorem foldl_or_eq_zero (ps : List (UInt8 × UInt8)) (d : UInt8) :
    ps.foldl (fun diff p => diff ||| (p.1 ^^^ p.2)) d = 0 ↔ d = 0 ∧ ∀ p ∈ ps, p.1 = p.2 := by
  induction ps generalizing d with
  | nil => simp
  | cons p ps ih =>
    have hor : d ||| (p.1 ^^^ p.2) = 0 ↔ d = 0 ∧ p.1 = p.2 := by
      rw [UInt8.or_eq_zero_iff, UInt8.xor_eq_zero_iff]
    rw [List.foldl_cons, ih, hor]
    simp [and_assoc]

/-- Folding the differences compares. -/
theorem constantTimeEq_iff {a b : Bytes} : constantTimeEq a b = true ↔ a = b := by
  simp only [constantTimeEq, Bool.and_eq_true, beq_iff_eq, foldl_or_eq_zero, true_and]
  constructor
  · rintro ⟨hlen, h⟩
    refine List.ext_getElem hlen fun i hi hj => ?_
    have hmem : (a[i], b[i]) ∈ List.zip a b := by
      rw [List.mem_iff_getElem]
      exact ⟨i, by simp; omega, by simp⟩
    exact h _ hmem
  · rintro rfl
    refine ⟨rfl, fun p hp => ?_⟩
    rw [List.zip_eq_zipWith] at hp
    obtain ⟨i, hi, rfl⟩ := List.mem_iff_getElem.mp hp
    simp

end Cat
