import Cat.Error
import Cat.Lib.Hex
import Cat.Lib.Splitting
import Cat.Lib.StructuredFields.Write

/-!
# What an error says

The `Display` of the errors. Details go through `SafeDisplay`, which escapes what could end a
line or turn its direction and cuts what is long; the names of claims and request fields are
written as they are. So the text of an error is plain exactly if its names are, and a log of
such errors has one line for each.

A detail may quote the peer: the method of a request, a header, the text of a token that failed
to parse. All of that is controlled by whoever sent it, and the escaping is there so that it can
be logged. The escapes are those of the source, character by character, and each is made of
characters that need no escape, so escaped text is plain whatever it was (`plain_safeDisplay`).
Names come from the program's text, and a name that had a line break in it would be a mistake of
the program; the statements carry them as a condition instead of assuming them away.

`errorLog_exact` is about readers of the log. What ends a line differs between them, and some
take more characters for a line break than the newline; the statement is for every reader that
breaks lines at unsafe characters only.
-/

set_option autoImplicit false

namespace Cat

/-! ## Escaping

Control and format characters are written as escapes, and long texts are cut. What is written
has none of these characters, whatever comes in.
-/

def safeDisplayMaxLen : Nat := 256

/-- Bidirectional and format controls, and the separators of lines and paragraphs. -/
def isFormatControl (c : Char) : Bool :=
  ('\u202a' ≤ c && c ≤ '\u202e') || ('\u2066' ≤ c && c ≤ '\u2069') || c == '\u200e' ||
    c == '\u200f' || c == '\u061c' || c == '\u2028' || c == '\u2029' || c == '\ufeff'

/-- Four digits at least, as in Rust's `\u` escapes, in braces. -/
def escapeUnicode (c : Char) : List Char :=
  ['\\', 'u', '\x7b'] ++ Hex.padded 4 c.toNat ++ ['\x7d']

def safeChar (c : Char) : List Char :=
  if ['\r', '\n', '\t', '\x00', '\x08', '\x0b', '\x0c', '\x7f'].contains c then
    ['\\', 'x'] ++ Hex.padded 2 c.toNat
  else if c.toNat < 0x20 || (0x80 ≤ c.toNat && c.toNat ≤ 0x9f) then escapeUnicode c
  else if isFormatControl c then escapeUnicode c
  else [c]

/-- The characters from some place on. The cut is counted in characters of the input, so what is
    shown can be longer than the limit. -/
def safeDisplayFrom : Nat → List Char → List Char
  | _, [] => []
  | count, c :: cs =>
    if safeDisplayMaxLen ≤ count then ['…'] else safeChar c ++ safeDisplayFrom (count + 1) cs

def safeDisplay (s : String) : String := String.ofList (safeDisplayFrom 0 s.toList)

/-- The general category `Cc`. -/
def isControl (c : Char) : Bool := c.toNat < 0x20 || (0x7f ≤ c.toNat && c.toNat ≤ 0x9f)

/-! ## Errors

The texts of the source. Details are escaped where they are shown; names of claims and fields
are not, since they are the crate's own.
-/

/-- The `Debug` of a list. -/
def debugList {α : Type} (debug : α → String) (as : List α) : String :=
  "[" ++ ", ".intercalate (as.map debug) ++ "]"

def debugBytes (b : List UInt8) : String := debugList (fun b => toString b.toNat) b

def debugKid : Option (List UInt8) → String
  | none => "None"
  | some kid => "Some(" ++ debugBytes kid ++ ")"

def CatError.display : CatError → String
  | invalidTokenFormat => "Invalid token format"
  | invalidCbor detail => "Invalid CBOR encoding: " ++ safeDisplay detail
  | invalidBase64 detail => "Invalid base64 encoding: " ++ safeDisplay detail
  | signatureVerificationFailed => "Token signature verification failed"
  | tokenExpired => "Token has expired"
  | tokenNotYetValid => "Token is not yet valid (nbf)"
  | invalidAudience => "Invalid audience"
  | invalidIssuer => "Invalid issuer"
  | missingRequiredClaim claim => "Missing required claim: " ++ claim
  | invalidClaimValue detail => "Invalid claim value: " ++ safeDisplay detail
  | malformedClaim claim detail => "Malformed claim " ++ claim ++ ": " ++ safeDisplay detail
  | claimEnforcementFailed claim detail =>
    "Claim " ++ claim ++ " enforcement failed: " ++ safeDisplay detail
  | missingRelayContext claim field =>
    "Token claim " ++ claim ++ " requires request context " ++ field ++
      ", but it was not provided"
  | unsupportedAlgorithm detail => "Unsupported algorithm: " ++ safeDisplay detail
  | algorithmMismatch expected found =>
    "Algorithm mismatch: expected " ++ toString expected.toInt ++ ", found " ++
      toString found.toInt
  | algorithmNotAllowed found allowed =>
    "Algorithm " ++ toString found.toInt ++ " not permitted by admission policy (allowed: " ++
      debugList (fun a => toString a.toInt) allowed ++ ")"
  | kidNotAllowed found allowed =>
    "Key ID " ++ debugKid found ++ " not permitted by admission policy (allowed: " ++
      debugList debugBytes allowed ++ ")"
  | keyOperationFailed detail => "Key operation failed: " ++ safeDisplay detail
  | backendUnavailable detail => "Backend unavailable: " ++ safeDisplay detail
  | configurationRefused detail => "Configuration refused: " ++ safeDisplay detail
  | geographicValidationFailed detail => "Geographic validation failed: " ++ safeDisplay detail
  | replayAttackDetected => "Replay attack detected"
  | moqtActionNotAuthorized detail => "MOQT action not authorized: " ++ safeDisplay detail
  | dpopValidationFailed detail => "DPoP validation failed: " ++ safeDisplay detail
  | invalidDpopBinding => "Invalid DPoP binding"
  | revalidationRequired => "Token revalidation required"
  | revalidationIntervalTooShort => "Revalidation interval too short"
  | rejectedByProbability => "Token rejected by probability of rejection"
  | certificateValidationFailed detail => "Certificate validation failed: " ++ safeDisplay detail
  | dpopAlgorithmNotSupported detail => "DPoP algorithm not supported: " ++ safeDisplay detail
  | dpopKeyMismatch => "DPoP key mismatch: embedded JWK thumbprint does not match expected"
  | unencryptedPrivacyClaim claim =>
    "Privacy-sensitive claim " ++ claim ++ " requires encryption"

/-! ## Plain texts

A text is plain if it has no control or format character. Of an error, all but the names is
plain by construction.
-/

/-- What must not stand in a line of a log. -/
def isUnsafe (c : Char) : Bool := isControl c || isFormatControl c

def Plain (cs : List Char) : Prop := ∀ c ∈ cs, isUnsafe c = false

variable {cs ds : List Char}

theorem plain_append : Plain (cs ++ ds) ↔ Plain cs ∧ Plain ds := List.forall_mem_append

theorem plain_of_all (h : (cs.all fun c => !isUnsafe c) = true) : Plain cs := by
  intro c hc
  simpa using List.all_eq_true.mp h c hc

theorem plain_padded (width n : Nat) : Plain (Hex.padded width n) := by
  have hdigits : Plain Hex.digits := plain_of_all (by decide)
  exact fun c hc => hdigits c (Hex.mem_padded hc)

theorem plain_escapeUnicode (c : Char) : Plain (escapeUnicode c) := by
  refine plain_append.mpr ⟨plain_append.mpr ⟨plain_of_all (by decide), plain_padded _ _⟩, ?_⟩
  exact plain_of_all (by decide)

theorem plain_safeChar (c : Char) : Plain (safeChar c) := by
  rw [safeChar]
  split
  · exact plain_append.mpr ⟨plain_of_all (by decide), plain_padded _ _⟩
  · rename_i hlisted
    split
    · exact plain_escapeUnicode c
    · rename_i hcontrol
      split
      · exact plain_escapeUnicode c
      · rename_i hformat
        intro d hd
        obtain rfl := List.mem_singleton.mp hd
        have hdel : d.toNat ≠ 0x7f := by
          intro hdel
          have hd : d = '\x7f' := by
            rw [← Char.ofNat_toNat d, hdel]
          rw [hd] at hlisted
          exact hlisted (by decide)
        simp only [isUnsafe, isControl, Bool.or_eq_false_iff]
        simp at hcontrol hformat ⊢
        refine ⟨⟨by omega, ?_⟩, hformat⟩
        omega

theorem toNat_lt_of_le {c : Char} {d : Char} (h : c ≤ d) : c.toNat ≤ d.toNat := h

theorem isFormatControl_lt {c : Char} (h : isFormatControl c = true) : c.toNat < 16 ^ 4 := by
  simp only [isFormatControl, Bool.or_eq_true, Bool.and_eq_true, decide_eq_true_eq,
    beq_iff_eq] at h
  rcases h with ((((((⟨-, h⟩ | ⟨-, h⟩) | rfl) | rfl) | rfl) | rfl) | rfl) | rfl
  · exact Nat.lt_of_le_of_lt (toNat_lt_of_le h) (by decide)
  · exact Nat.lt_of_le_of_lt (toNat_lt_of_le h) (by decide)
  all_goals decide

theorem length_escapeUnicode {c : Char} (h : c.toNat < 16 ^ 4) :
    (escapeUnicode c).length = 8 := by
  rw [escapeUnicode, List.length_append, List.length_append, Hex.length_padded (by decide) h]
  rfl

theorem length_safeChar (c : Char) : (safeChar c).length ≤ 8 := by
  rw [safeChar]
  split
  · rename_i hlisted
    have hlt : c.toNat < 16 ^ 2 := by
      have hall : ∀ d ∈ ['\r', '\n', '\t', '\x00', '\x08', '\x0b', '\x0c', '\x7f'],
          d.toNat < 16 ^ 2 := List.forall_mem_of_all (by decide)
      exact hall c (by simpa using hlisted)
    rw [List.length_append, Hex.length_padded (by decide) hlt]
    decide
  · split
    · rename_i hcontrol
      have hlt : c.toNat < 16 ^ 4 := by
        simp at hcontrol
        omega
      exact Nat.le_of_eq (length_escapeUnicode hlt)
    · split
      · rename_i hformat
        exact Nat.le_of_eq (length_escapeUnicode (isFormatControl_lt hformat))
      · exact Nat.le_add_left 1 7

theorem plain_safeDisplayFrom (cs : List Char) : ∀ count, Plain (safeDisplayFrom count cs) := by
  induction cs with
  | nil => exact fun count c hc => absurd hc List.not_mem_nil
  | cons c cs ih =>
    intro count
    rw [safeDisplayFrom]
    split
    · exact plain_of_all (by decide)
    · exact plain_append.mpr ⟨plain_safeChar c, ih (count + 1)⟩

/-- Each character becomes eight at most, and the mark of a cut is one. -/
theorem length_safeDisplayFrom (cs : List Char) : ∀ count,
    (safeDisplayFrom count cs).length ≤ 8 * (safeDisplayMaxLen - count) + 1 := by
  induction cs with
  | nil => exact fun count => Nat.zero_le _
  | cons c cs ih =>
    intro count
    rw [safeDisplayFrom]
    split
    · exact Nat.le_add_left 1 _
    · have hchar := length_safeChar c
      have hrest := ih (count + 1)
      rw [List.length_append]
      omega

theorem plain_safeDisplay (s : String) : Plain (safeDisplay s).toList := by
  rw [safeDisplay, String.toList_ofList]
  exact plain_safeDisplayFrom _ 0

theorem length_safeDisplay (s : String) : (safeDisplay s).length ≤ 2049 := by
  rw [safeDisplay, String.length_ofList]
  exact length_safeDisplayFrom _ 0

theorem plain_digits (n : Nat) : Plain (Nat.toDigits 10 n) := by
  intro c hc
  have hall : ∀ m < 58, 48 ≤ m → isUnsafe (Char.ofNat m) = false := by decide
  obtain ⟨hlow, hhigh⟩ : 48 ≤ c.toNat ∧ c.toNat ≤ 57 := by
    simpa [Char.isDigit, UInt32.le_iff_toNat_le] using
      Nat.isDigit_of_mem_toDigits (by decide) (by decide) hc
  rw [← Char.ofNat_toNat c]
  exact hall _ (by omega) hlow

theorem plain_int (n : Int) : Plain (toString n).toList := by
  rw [StructuredFields.toList_toString]
  refine plain_append.mpr ⟨?_, plain_digits _⟩
  split
  · exact plain_of_all (by decide)
  · exact plain_of_all (by decide)

theorem plain_nat (n : Nat) : Plain (toString n).toList := by
  have htext : (toString n).toList = Nat.toDigits 10 n := Nat.toList_repr
  rw [htext]
  exact plain_digits n

theorem plain_debugList {α : Type} {debug : α → String} (h : ∀ a, Plain (debug a).toList)
    (as : List α) : Plain (debugList debug as).toList := by
  have hsep : ∀ c ∈ ", ".toList, isUnsafe c = false := plain_of_all (by decide)
  have hparts : ∀ s ∈ as.map debug, ∀ c ∈ s.toList, isUnsafe c = false := by
    intro s hs
    obtain ⟨a, -, rfl⟩ := List.mem_map.mp hs
    exact h a
  have hjoined := (String.forall_mem_intercalate hsep).mpr hparts
  rw [debugList, String.toList_append, String.toList_append]
  exact plain_append.mpr ⟨plain_append.mpr ⟨plain_of_all (by decide), hjoined⟩,
    plain_of_all (by decide)⟩

/-- The names that stand in the text as they are. -/
def CatError.names : CatError → List String
  | missingRequiredClaim claim | unencryptedPrivacyClaim claim => [claim]
  | malformedClaim claim _ | claimEnforcementFailed claim _ => [claim]
  | missingRelayContext claim field => [claim, field]
  | _ => []

theorem plain_text {s t : String} : Plain (s ++ t).toList ↔ Plain s.toList ∧ Plain t.toList := by
  rw [String.toList_append, plain_append]

/-- A fixed text and a detail behind it. -/
theorem plain_detailed {text : String} (h : Plain text.toList) (detail : String) :
    Plain (text ++ safeDisplay detail).toList :=
  plain_text.mpr ⟨h, plain_safeDisplay detail⟩

theorem plain_debugBytes (b : List UInt8) : Plain (debugBytes b).toList := by
  have hbyte : ∀ b : UInt8, Plain (toString b.toNat).toList := fun b => plain_nat b.toNat
  rw [debugBytes]
  exact plain_debugList hbyte b

theorem plain_debugKid (kid : Option (List UInt8)) : Plain (debugKid kid).toList := by
  cases kid with
  | none => exact plain_of_all (by decide)
  | some kid =>
    exact plain_text.mpr ⟨plain_text.mpr ⟨plain_of_all (by decide), plain_debugBytes kid⟩,
      plain_of_all (by decide)⟩

/-- **The text of an error is plain exactly if its names are.** -/
theorem plain_display (e : CatError) :
    Plain e.display.toList ↔ ∀ name ∈ e.names, Plain name.toList := by
  have hnone : ∀ {text : String}, Plain text.toList →
      (Plain text.toList ↔ ∀ name ∈ ([] : List String), Plain name.toList) :=
    fun h => iff_of_true h fun _ hname => absurd hname List.not_mem_nil
  have hone : ∀ {name : String},
      Plain name.toList ↔ ∀ name' ∈ [name], Plain name'.toList := by simp
  have hdetailed : ∀ {text detail : String}, Plain text.toList →
      (Plain (text ++ safeDisplay detail).toList ↔
        ∀ name ∈ ([] : List String), Plain name.toList) :=
    fun h => hnone (plain_detailed h _)
  have hname : ∀ {text name : String}, Plain text.toList →
      (Plain (text ++ name).toList ↔ Plain name.toList) :=
    fun h => plain_text.trans (and_iff_right h)
  have hend : ∀ {text end' : String}, Plain end'.toList →
      (Plain (text ++ end').toList ↔ Plain text.toList) :=
    fun h => plain_text.trans (and_iff_left h)
  cases e with
  | invalidCbor detail | invalidBase64 detail | invalidClaimValue detail
  | unsupportedAlgorithm detail | keyOperationFailed detail | backendUnavailable detail
  | configurationRefused detail | geographicValidationFailed detail
  | moqtActionNotAuthorized detail | dpopValidationFailed detail
  | certificateValidationFailed detail | dpopAlgorithmNotSupported detail =>
    exact hdetailed (plain_of_all (by decide +kernel))
  | missingRequiredClaim claim =>
    exact (hname (plain_of_all (by decide +kernel))).trans hone
  | unencryptedPrivacyClaim claim =>
    refine (hend (plain_of_all (by decide +kernel))).trans ?_
    exact (hname (plain_of_all (by decide +kernel))).trans hone
  | malformedClaim claim detail | claimEnforcementFailed claim detail =>
    refine (hend (plain_safeDisplay detail)).trans ?_
    refine (hend (plain_of_all (by decide +kernel))).trans ?_
    exact (hname (plain_of_all (by decide +kernel))).trans hone
  | missingRelayContext claim field =>
    refine (hend (plain_of_all (by decide +kernel))).trans ?_
    rw [plain_text, hend (plain_of_all (by decide +kernel)),
      hname (plain_of_all (by decide +kernel))]
    simp [CatError.names]
  | algorithmMismatch expected found =>
    refine hnone (plain_text.mpr ⟨plain_text.mpr ⟨?_, ?_⟩, plain_int _⟩)
    · exact plain_text.mpr ⟨plain_of_all (by decide +kernel), plain_int _⟩
    · exact plain_of_all (by decide +kernel)
  | algorithmNotAllowed found allowed =>
    have hlist := plain_debugList (fun a : Int64 => plain_int a.toInt) allowed
    refine hnone (plain_text.mpr ⟨plain_text.mpr ⟨plain_text.mpr ⟨?_, ?_⟩, hlist⟩, ?_⟩)
    · exact plain_text.mpr ⟨plain_of_all (by decide +kernel), plain_int _⟩
    · exact plain_of_all (by decide +kernel)
    · exact plain_of_all (by decide +kernel)
  | kidNotAllowed found allowed =>
    have hlist := plain_debugList plain_debugBytes allowed
    refine hnone (plain_text.mpr ⟨plain_text.mpr ⟨plain_text.mpr ⟨?_, ?_⟩, hlist⟩, ?_⟩)
    · exact plain_text.mpr ⟨plain_of_all (by decide +kernel), plain_debugKid found⟩
    · exact plain_of_all (by decide +kernel)
    · exact plain_of_all (by decide +kernel)
  | _ => exact hnone (plain_of_all (by decide +kernel))

/-! ## Logs

A log is written line by line and read by its line ends.
-/

/-- A line for each error. -/
def errorLog (es : List CatError) : List Char :=
  es.flatMap fun e => e.display.toList ++ ['\n']

theorem errorLog_cons (e : CatError) (es : List CatError) :
    errorLog (e :: es) = e.display.toList ++ '\n' :: errorLog es := by
  simp [errorLog]

/-- **A log has one line for each error**, also for a reader that ends lines at further unsafe
characters, exactly if the names in the errors are plain.

Details are shown with unsafe characters replaced, names are shown as they are, because the crate
chooses them. How far that can be relied on is what the condition says. -/
theorem errorLog_exact (es : List CatError) :
    (∀ breaks : Char → Bool, breaks '\n' = true → (∀ c, breaks c = true → isUnsafe c = true) →
      (errorLog es).splitOnP breaks = es.map (fun e => e.display.toList) ++ [[]]) ↔
      ∀ e ∈ es, ∀ name ∈ e.names, Plain name.toList := by
  simp only [← plain_display]
  constructor
  · intro h e he
    have hparts := h isUnsafe (by decide) fun c hc => hc
    apply List.of_mem_splitOnP
    rw [hparts]
    exact List.mem_append_left _ (List.mem_map_of_mem he)
  · intro h breaks hline hbreaks
    induction es with
    | nil => exact List.splitOnP_nil
    | cons e es ih =>
      have hplain : ∀ c ∈ e.display.toList, breaks c = false := by
        intro c hc
        by_contra hbreak
        have hunsafe := hbreaks c (Bool.not_eq_false _ ▸ hbreak)
        rw [h e List.mem_cons_self c hc] at hunsafe
        cases hunsafe
      rw [errorLog_cons, List.splitOnP_append_cons_of_forall_mem hplain '\n' hline,
        ih fun e he => h e (List.mem_cons_of_mem _ he)]
      rfl

end Cat
