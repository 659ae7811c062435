import Cat.Lib.Memo
import Cat.Token.Enforce

/-!
# Compiled patterns are shared

All threads look compiled regular expressions up in one cache of the process. Between the
lookups of one request others come in any number and order, and drive entries out. The guards
that match regular expressions give the verdicts that they give without a cache.

The guards are written once more with the cache, as programs in a state monad, and each lookup
first lets the others do what they want: the state is the cache and what the others are going to
do. That is every interleaving at the granularity of the lock, since the lock is held for a
lookup and the match is made without it.

The invariant is that under each pattern stands what the pattern compiles to, and that there are
no more entries than the size. It says nothing about who entered what, so it does not matter who
did.
-/

set_option autoImplicit false

namespace Cat

open Cbor

def regexCacheSize : Nat := 256

abbrev PatternCache := Lru String (String → Bool)

/-- A match value and what it is applied to. -/
structure PatternCall where
  matchValue : MatchValue
  input : List Char

/-- The cache, and the calls of other threads: those before this thread's next lookup, those
    between that and the one after it, and so on. -/
structure SharedPatterns where
  cache : PatternCache
  others : List (List PatternCall)

section
variable (H : Host)

/-- `apply_match_value` with the cache. The lock is held for the lookup; the match is made
    without it. -/
def applyMatchValueIn (c : PatternCall) (cache : PatternCache) : Bool × PatternCache :=
  match c.matchValue with
  | .regex pattern =>
    let text := String.ofList c.input
    if (utf8 text).length > maxRegexInputLen then (false, cache)
    else match cache.getOrCompute H.regex pattern with
      | (some isMatch, cache) => (isMatch text, cache)
      | (none, cache) => (false, cache)
  | mv => (applyMatchValue H mv c.input, cache)

/-- Calls one after the other, and their verdicts. -/
def applyAll : List PatternCall → PatternCache → List Bool × PatternCache
  | [], cache => ([], cache)
  | c :: calls, cache =>
    let (verdict, cache) := applyMatchValueIn H c cache
    let (verdicts, cache) := applyAll calls cache
    (verdict :: verdicts, cache)

/-- A call of this thread, after what the others do first. -/
def applyMatchValueShared (mv : MatchValue) (input : List Char) : StateM SharedPatterns Bool :=
  fun s =>
    let (_, cache) := applyAll H (s.others.headD []) s.cache
    let (verdict, cache) := applyMatchValueIn H ⟨mv, input⟩ cache
    (verdict, ⟨cache, s.others.tail⟩)

/-! ## The guards on shared patterns -/

def validateHeaderShared (requestHeaders : List (String × String)) (rule : HeaderMatchRule) :
    ExceptT CatError (StateM SharedPatterns) Unit :=
  match requestHeaders.find? fun h => eqIgnoreAsciiCase rule.name.toList h.1.toList with
  | some (_, value) => do
    let unfolded := unfoldHeaderValue value.toList
    let matched ← ExceptT.lift (rule.matches_.anyM fun mv => applyMatchValueShared H mv unfolded)
    if matched then return
    else throw (.invalidClaimValue s!"Header '{rule.name}' value does not match any rule")
  | none => throw (.invalidClaimValue s!"Required header '{rule.name}' is missing from request")

def validateAllHeadersShared (token : CatToken) (requestHeaders : List (String × String)) :
    ExceptT CatError (StateM SharedPatterns) Unit :=
  match token.cat.cath with
  | none => return
  | some rules => rules.forM (validateHeaderShared H requestHeaders)

def enforceCatuRuleShared (components : UriComponents) (rule : UriMatchRule) :
    ExceptT CatError (StateM SharedPatterns) Unit := do
  let matched ← ExceptT.lift (rule.matches_.anyM fun mv =>
    applyMatchValueShared H mv (components.component rule.component))
  if matched then return
  else throw (.invalidClaimValue
    s!"catu: URI component {rule.component.toInt} does not match any allowed value")

def enforceCatuShared (token : CatToken) (requestUri : String) :
    ExceptT CatError (StateM SharedPatterns) Unit :=
  match token.cat.catu with
  | none => return
  | some rules =>
    match decomposeUri requestUri with
    | .error e => throw e
    | .ok components => rules.forM (enforceCatuRuleShared H components)

end

section
variable {H : Host}

/-- What holds of the cache at any time. -/
structure PatternCache.Sound (H : Host) (cache : PatternCache) : Prop where
  remembers : cache.Remembers H.regex
  cap : cache.cap = regexCacheSize

theorem patternCache_start (H : Host) : PatternCache.Sound H (.empty regexCacheSize) :=
  ⟨Lru.remembers_empty H.regex regexCacheSize, rfl⟩

/-- One call. -/
theorem applyMatchValueIn_sound {cache : PatternCache} (h : PatternCache.Sound H cache)
    (c : PatternCall) :
    (applyMatchValueIn H c cache).1 = applyMatchValue H c.matchValue c.input ∧
      PatternCache.Sound H (applyMatchValueIn H c cache).2 := by
  obtain ⟨mv, input⟩ := c
  cases mv with
  | regex pattern =>
    obtain ⟨hverdict, hremembers, hcap⟩ := h.remembers.getOrCompute pattern
    unfold applyMatchValueIn applyMatchValue
    dsimp only
    by_cases hlong : (utf8 (String.ofList input)).length > maxRegexInputLen
    · rw [if_pos hlong, if_pos hlong]
      exact ⟨rfl, h⟩
    · rw [if_neg hlong, if_neg hlong, ← hverdict]
      have hnext : PatternCache.Sound H (cache.getOrCompute H.regex pattern).2 :=
        ⟨hremembers, hcap.trans h.cap⟩
      generalize cache.getOrCompute H.regex pattern = found at hnext ⊢
      obtain ⟨isMatch, cache'⟩ := found
      cases isMatch with
      | none => exact ⟨rfl, hnext⟩
      | some isMatch => exact ⟨rfl, hnext⟩
  | _ => exact ⟨rfl, h⟩

/-- Any number of calls. -/
theorem applyAll_sound {cache : PatternCache} (h : PatternCache.Sound H cache)
    (calls : List PatternCall) :
    (applyAll H calls cache).1 = calls.map (fun c => applyMatchValue H c.matchValue c.input) ∧
      PatternCache.Sound H (applyAll H calls cache).2 := by
  induction calls generalizing cache with
  | nil => exact ⟨rfl, h⟩
  | cons c calls ih =>
    obtain ⟨hverdict, hnext⟩ := applyMatchValueIn_sound h c
    obtain ⟨hverdicts, hend⟩ := ih hnext
    exact ⟨List.cons_eq_cons.mpr ⟨hverdict, hverdicts⟩, hend⟩

theorem applyMatchValueShared_computes (mv : MatchValue) (input : List Char) :
    Computes (fun s : SharedPatterns => PatternCache.Sound H s.cache)
      (applyMatchValueShared H mv input) (applyMatchValue H mv input) := by
  intro s hs
  obtain ⟨-, hothers⟩ := applyAll_sound hs (s.others.headD [])
  exact applyMatchValueIn_sound hothers ⟨mv, input⟩

/-- A guard that asks whether one of the match values applies. -/
theorem computes_guard {mvs : List MatchValue} {input : List Char} {e : CatError} :
    Computes (fun s : SharedPatterns => PatternCache.Sound H s.cache)
      (do
        let matched ← ExceptT.lift (mvs.anyM fun mv => applyMatchValueShared H mv input)
        if matched then return
        else throw e : ExceptT CatError (StateM SharedPatterns) Unit).run
      (if mvs.any fun mv => applyMatchValue H mv input then Except.ok () else .error e) := by
  rw [ExceptT.run_bind, ExceptT.run_lift, map_eq_pure_bind]
  have hany : Computes (fun s : SharedPatterns => PatternCache.Sound H s.cache)
      (mvs.anyM fun mv => applyMatchValueShared H mv input)
      (mvs.any fun mv => applyMatchValue H mv input) :=
    Computes.anyM fun mv _ => applyMatchValueShared_computes mv input
  apply (hany.bind (k := fun matched => Pure.pure (Except.ok matched)) (Computes.pure _)).bind
  cases mvs.any fun mv => applyMatchValue H mv input with
  | true => exact Computes.pure (Except.ok ())
  | false => exact Computes.pure (Except.error e)

theorem validateAllHeadersShared_computes (token : CatToken)
    (requestHeaders : List (String × String)) :
    Computes (fun s : SharedPatterns => PatternCache.Sound H s.cache)
      (validateAllHeadersShared H token requestHeaders).run
      (validateAllHeaders H token requestHeaders) := by
  unfold validateAllHeadersShared validateAllHeaders
  cases token.cat.cath with
  | none => exact Computes.pure (Except.ok ())
  | some rules =>
    apply Computes.forM
    intro rule _
    unfold validateHeaderShared validateHeader
    cases requestHeaders.find? fun h => eqIgnoreAsciiCase rule.name.toList h.1.toList with
    | none => exact Computes.pure (Except.error _)
    | some h => exact computes_guard

theorem enforceCatuShared_computes (token : CatToken) (requestUri : String) :
    Computes (fun s : SharedPatterns => PatternCache.Sound H s.cache)
      (enforceCatuShared H token requestUri).run (enforceCatu H token requestUri) := by
  unfold enforceCatuShared enforceCatu
  cases token.cat.catu with
  | none => exact Computes.pure (Except.ok ())
  | some rules =>
    cases decomposeUri requestUri with
    | error e => exact Computes.pure (Except.error e)
    | ok components =>
      apply Computes.forM
      intro rule _
      exact computes_guard

end

/-- **The cache of compiled patterns is transparent.** After any calls of any threads, each of
    which got the verdict that it gets without a cache, the cache holds at most its size, and
    under each pattern what the pattern compiles to; and the guards on headers and URIs, with
    more calls of others between any two of their own, decide as they do without a cache. -/
theorem patternCache_transparent (H : Host) (calls : List PatternCall)
    (others : List (List PatternCall)) (token : CatToken)
    (requestHeaders : List (String × String)) (requestUri : String) :
    (applyAll H calls (.empty regexCacheSize)).1 =
        calls.map (fun c => applyMatchValue H c.matchValue c.input) ∧
      (applyAll H calls (.empty regexCacheSize)).2.entries.length ≤ regexCacheSize ∧
      (∀ pattern isMatch,
        (pattern, isMatch) ∈ (applyAll H calls (.empty regexCacheSize)).2.entries →
        H.regex pattern = some isMatch) ∧
      ((validateAllHeadersShared H token requestHeaders).run.run
          ⟨(applyAll H calls (.empty regexCacheSize)).2, others⟩).1 =
        validateAllHeaders H token requestHeaders ∧
      ((enforceCatuShared H token requestUri).run.run
          ⟨(applyAll H calls (.empty regexCacheSize)).2, others⟩).1 =
        enforceCatu H token requestUri := by
  obtain ⟨hverdicts, hsound⟩ := applyAll_sound (patternCache_start H) calls
  refine ⟨hverdicts, ?_, hsound.remembers, ?_, ?_⟩
  · exact Nat.le_trans (Lru.length_le _) (Nat.le_of_eq hsound.cap)
  · exact (validateAllHeadersShared_computes token requestHeaders _ hsound).1
  · exact (enforceCatuShared_computes token requestUri _ hsound).1

end Cat
