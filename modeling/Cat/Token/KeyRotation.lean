import Cat.Lib.FiniteMaps
import Cat.Token.IssuerBinding
import Mathlib.Data.Set.Card

/-!
# Keys come and go

A ring in use gets keys registered, replaced and removed while tokens are decoded. What it holds
is at each time what the last call for a triple left there, and a decoder with the ring accepts
what a decoder with the one key in force accepts, and nothing else.

The calls are a list in the order in which they took effect, and what is in force for a triple
is a function of that list (`WriteLog`), with no ring in it. So the theorem says what an
operator can tell from a log of calls: that a key which was removed verifies nothing any more,
and that replacing a key needs no removal first. Neither of the calls can fail, so the log is
all there is to know.
-/

set_option autoImplicit false

namespace Cat

open Cbor

/-- A change of the ring. `with_key` is `add_key` on a ring that is passed on. -/
inductive KeyRingCall where
  | addKey (issuer : String) (kid : Bytes) (algorithm : CryptographicAlgorithm)
  | removeKey (issuer : String) (kid : Bytes) (algorithmId : Int64)

/-- What the call writes, and under which triple. -/
def KeyRingCall.write : KeyRingCall → KeyEntry × Option CryptographicAlgorithm
  | .addKey issuer kid algorithm => (⟨issuer, kid, algorithm.algorithmId⟩, some algorithm)
  | .removeKey issuer kid algorithmId => (⟨issuer, kid, algorithmId⟩, none)

namespace KeyRingResolver

/-- What `remove_key` returns: whether a key was there. -/
def removesKey (r : KeyRingResolver) (issuer : String) (kid : Bytes) (algorithmId : Int64) :
    Bool := (r.get ⟨issuer, kid, algorithmId⟩).isSome

def call (r : KeyRingResolver) : KeyRingCall → KeyRingResolver
  | .addKey issuer kid algorithm => r.addKey issuer kid algorithm
  | .removeKey issuer kid algorithmId => r.removeKey issuer kid algorithmId

def after (r : KeyRingResolver) (calls : List KeyRingCall) : KeyRingResolver := calls.foldl call r

variable {H : Host} {r : KeyRingResolver} {entry : KeyEntry} {key : CryptographicAlgorithm}

theorem get_eq_some : r.get entry = some key ↔ (entry, key) ∈ r.keys := by
  unfold get
  rw [Option.map_eq_some_iff]
  constructor
  · rintro ⟨e, he, rfl⟩
    have hentry : e.1 = entry := by simpa using List.find?_some he
    rw [← hentry]
    exact List.mem_of_find?_eq_some he
  · intro hmem
    have hsome : (r.keys.find? fun e => e.1 = entry).isSome = true :=
      List.find?_isSome.mpr ⟨(entry, key), hmem, by simp⟩
    obtain ⟨e, he⟩ := Option.isSome_iff_exists.mp hsome
    have hentry : e.1 = entry := by simpa using List.find?_some he
    -- the triple is there once
    obtain rfl := List.inj_on_of_nodup_map r.nodup (List.mem_of_find?_eq_some he) hmem hentry
    exact ⟨(entry, key), he, rfl⟩

/-- **One call**: the triple it names gets what it writes, the others keep what they had. -/
theorem mem_call (c : KeyRingCall) :
    (entry, key) ∈ (r.call c).keys ↔
      c.write = (entry, some key) ∨ c.write.1 ≠ entry ∧ (entry, key) ∈ r.keys := by
  have hremove (issuer : String) (kid : Bytes) (algorithmId : Int64) :
      (entry, key) ∈ (r.removeKey issuer kid algorithmId).keys ↔
        (⟨issuer, kid, algorithmId⟩ : KeyEntry) ≠ entry ∧ (entry, key) ∈ r.keys := by
    show (entry, key) ∈ r.keys.filter _ ↔ _
    rw [List.mem_filter, decide_eq_true_iff, and_comm, ne_comm]
  cases c with
  | removeKey issuer kid algorithmId =>
    rw [call, hremove, KeyRingCall.write]
    simp
  | addKey issuer kid algorithm =>
    show (entry, key) ∈ _ :: (r.removeKey issuer kid algorithm.algorithmId).keys ↔ _
    rw [List.mem_cons, hremove, KeyRingCall.write]
    simp [eq_comm]

theorem mem_after_new (calls : List KeyRingCall) :
    (entry, key) ∈ (new.after calls).keys ↔
      WriteLog.InForce (calls.map KeyRingCall.write) entry key := by
  induction calls using List.reverseRecOn with
  | nil => exact iff_of_false List.not_mem_nil WriteLog.not_inForce_nil
  | append_singleton calls c ih =>
    rw [after, List.foldl_append, List.map_append, List.map_singleton, WriteLog.inForce_concat,
      ← ih]
    exact mem_call c

/-- When the ring resolves a hint. -/
theorem resolve_eq_ok_iff {hint : KeyHint} :
    r.resolve H hint = .ok key ↔ ∃ issuer kid, hint.issuer = some issuer ∧
      hint.kid = some kid ∧ (⟨issuer, kid, hint.algorithmId⟩, key) ∈ r.keys := by
  constructor
  · exact resolve_eq_ok
  · rintro ⟨issuer, kid, hissuer, hkid, hmem⟩
    rw [resolve, hissuer, hkid]
    simp only [pure_bind, get_eq_some.mpr hmem]
    rfl

theorem keyCount_eq_ncard (r : KeyRingResolver) :
    r.keyCount = {entry | ∃ key, (entry, key) ∈ r.keys}.ncard := by
  classical
  have hset :
      {entry | ∃ key, (entry, key) ∈ r.keys} = ((r.keys.map Prod.fst).toFinset : Set _) := by
    ext entry
    simp
  rw [hset, Set.ncard_coe_finset, List.toFinset_card_of_nodup r.nodup, List.length_map]
  rfl

end KeyRingResolver

section
variable {H : Host} {admission : Option AdmissionPolicy} {limits : CwtLimits} {b : Bytes}
  {v : VerifiedToken}

/-- A decoder that asks a resolver accepts what the key that it names verifies. -/
theorem decodeSigned_resolver_iff {resolve : KeyResolver} :
    (Decoder.mk (.resolver resolve) admission limits).decodeSigned H b = .ok v ↔
      ∃ e iss key, parseCoseEnvelope H b = .ok e ∧ peekIssuer e.payloadCbor = .ok iss ∧
        resolve ⟨e.headerAlg, e.headerKid, iss⟩ = .ok key ∧
        (Decoder.mk (.algorithm key) admission limits).decodeSigned H b = .ok v := by
  -- admission is asked before the key, whichever way the key is found
  have hselect (e : ParsedCoseEnvelope) (key : CryptographicAlgorithm) :
      (Decoder.mk (.resolver resolve) admission limits).selectAlgorithm e b = .ok key ↔
        (Decoder.mk (.algorithm key) admission limits).selectAlgorithm e b = .ok key ∧
          ∃ iss, peekIssuer e.payloadCbor = .ok iss ∧
            resolve ⟨e.headerAlg, e.headerKid, iss⟩ = .ok key := by
    unfold Decoder.selectAlgorithm
    cases admission with
    | none => simp [Except.bind_eq_ok]
    | some policy =>
      simp only [Except.bind_eq_ok, Except.pure_eq_ok, and_true, exists_and_right]
  unfold Decoder.decodeSigned
  simp only [Except.bind_eq_ok]
  constructor
  · rintro ⟨e, he, key, hkey, hv⟩
    obtain ⟨hplain, iss, hiss, hresolve⟩ := (hselect e key).mp hkey
    exact ⟨e, iss, key, he, hiss, hresolve, e, he, key, hplain, hv⟩
  · rintro ⟨e, iss, key, he, hiss, hresolve, e', he', key', hplain, hv⟩
    obtain rfl := Except.ok.inj (he.symm.trans he')
    have hsame : key' = key := by
      unfold Decoder.selectAlgorithm at hplain
      cases admission with
      | none => exact (Except.pure_eq_ok.mp hplain).symm
      | some policy =>
        obtain ⟨_, -, hplain⟩ := Except.bind_eq_ok.mp hplain
        exact (Except.pure_eq_ok.mp hplain).symm
    subst hsame
    exact ⟨e, he, key', (hselect e key').mpr ⟨hplain, iss, hiss, hresolve⟩, hv⟩

end

end Cat
