import Cat.Lib.HttpFields
import Cat.Lib.Runs

/-!
# HTTP caches

What a cache may do with a response (RFC 9111), as far as the `Cache-Control` fields decide it:
whether it may store it, how long the response is fresh, and whether it may use it again without
asking the origin. A run of a cache receives responses, drops some and uses some again.

A cache here is any cache: how it reads the lines of a message, whether it is shared, and the
longest time it can represent are parameters, and `MayReuse` is what the standard permits it, as
a condition on the directives and the time. Whoever writes responses can then show what no cache
will do with them, which is the guarantee that response headers are for.

Directives are read the way recipients do, from the text of the fields, without regard for case
or for blanks around the commas. That what was written is read again (`readDirectives_write`)
needs texts that say where they end, no blank or comma in either part and no equals sign in the
name, and this is `Directive.WellFormed`.
-/

set_option autoImplicit false

namespace Http

open StructuredFields (isOws)

/-- A directive: its name in lower case, and its argument. -/
abbrev Directive := List Char × List Char

def readDirective (part : List Char) : Directive :=
  match (trim part).splitOnce '=' with
  | some (name, argument) => (name.map Char.toLower, argument)
  | none => ((trim part).map Char.toLower, [])

def readDirectives (value : List Char) : List Directive := (value.splitOn ',').map readDirective

def writeDirective (d : Directive) : List Char :=
  if d.2 = [] then d.1 else d.1 ++ '=' :: d.2

def writeDirectives (ds : List Directive) : List Char :=
  [',', ' '].intercalate (ds.map writeDirective)

/-- The directives of all `Cache-Control` fields. -/
def directives (fields : List Field) : List Directive :=
  (fields.filter (·.1 = "cache-control".toList)).flatMap (readDirectives ·.2)

def argument (name : String) (ds : List Directive) : Option (List Char) :=
  (ds.find? (·.1 = name.toList)).map (·.2)

def has (name : String) (ds : List Directive) : Bool := (argument name ds).isSome

/-- A number of seconds. Anything else counts as no time at all. -/
def deltaSeconds (arg : List Char) : Nat :=
  if !arg.isEmpty && arg.all Char.isDigit then Nat.ofDigitChars 10 arg 0 else 0

/-- A response, with the time at which it was made. -/
structure Response where
  date : Int
  message : List Char
  deriving DecidableEq

/-- A cache: how it reads lines, whether it serves several users, and the longest time that it
can represent. -/
structure Cache where
  lone : Char → Bool
  shared : Bool
  longest : Nat

theorem argument_nil {key : String} : argument key [] = none := rfl

theorem argument_cons {name key : String} {arg : List Char} {ds : List Directive} :
    argument key ((name.toList, arg) :: ds) = if name = key then some arg else argument key ds := by
  rw [argument, List.find?_cons]
  by_cases h : name = key
  · simp [h]
  · have hlist : name.toList ≠ key.toList := fun heq => h (String.toList_inj.mp heq)
    simp [h, hlist, argument]

theorem deltaSeconds_toDigits (n : Nat) : deltaSeconds (Nat.toDigits 10 n) = n := by
  have hdigits : (Nat.toDigits 10 n).all Char.isDigit = true := List.all_eq_true.mpr
    fun _ hc => Nat.isDigit_of_mem_toDigits (by decide) (by decide) hc
  have hne : (Nat.toDigits 10 n).isEmpty = false := by simp
  rw [deltaSeconds, hdigits, hne]
  exact Nat.ofDigitChars_ten_toDigits

/-! ## Directives that were written -/

/-- A directive whose text says where it ends. -/
structure Directive.WellFormed (d : Directive) : Prop where
  name_ne_nil : d.1 ≠ []
  name : ∀ c ∈ d.1, isOws c = false ∧ c ≠ ',' ∧ c ≠ '=' ∧ c.toLower = c
  argument : ∀ c ∈ d.2, isOws c = false ∧ c ≠ ','

variable {d : Directive} {ds : List Directive}

theorem mem_writeDirective (h : d.WellFormed) {c : Char} (hc : c ∈ writeDirective d) :
    isOws c = false ∧ c ≠ ',' := by
  rw [writeDirective] at hc
  split at hc
  · exact ⟨(h.name c hc).1, (h.name c hc).2.1⟩
  · rcases List.mem_append.mp hc with hc | hc
    · exact ⟨(h.name c hc).1, (h.name c hc).2.1⟩
    · rcases List.mem_cons.mp hc with rfl | hc
      · decide
      · exact h.argument c hc

theorem writeDirective_ne_nil (h : d.WellFormed) : writeDirective d ≠ [] := by
  rw [writeDirective]
  split
  · exact h.name_ne_nil
  · simp

theorem readDirective_write (h : d.WellFormed) : readDirective (writeDirective d) = d := by
  obtain ⟨name, arg⟩ := d
  have htrim : trim (writeDirective (name, arg)) = writeDirective (name, arg) :=
    trim_eq_self (fun c hc => (mem_writeDirective h (List.mem_of_mem_head? hc)).1)
      fun c hc => (mem_writeDirective h (List.mem_of_getLast? hc)).1
  have hequals : '=' ∉ name := fun hmem => (h.name '=' hmem).2.2.1 rfl
  have hlower : name.map Char.toLower = name :=
    (List.map_congr_left fun c hc => (h.name c hc).2.2.2).trans name.map_id
  rw [readDirective, htrim]
  by_cases harg : arg = []
  · subst harg
    have hnone : List.splitOnce '=' name = none := List.splitOnce_eq_none.mpr hequals
    rw [show writeDirective (name, []) = name from rfl, hnone]
    show (name.map Char.toLower, []) = _
    rw [hlower]
  · rw [show writeDirective (name, arg) = name ++ '=' :: arg from if_neg harg,
      List.splitOnce_append hequals]
    show (name.map Char.toLower, arg) = _
    rw [hlower]

theorem writeDirectives_cons (d : Directive) {ds : List Directive} (hne : ds ≠ []) :
    writeDirectives (d :: ds) = writeDirective d ++ ',' :: ' ' :: writeDirectives ds := by
  obtain ⟨e, es, rfl⟩ := List.exists_cons_of_ne_nil hne
  rw [writeDirectives, List.map_cons, List.map_cons, List.intercalate_cons_cons]
  simp [writeDirectives]

/-- A blank after the comma makes no difference. -/
theorem readDirectives_blank (cs : List Char) :
    readDirectives (' ' :: cs) = readDirectives cs := by
  have hcons : (' ' :: cs).splitOn ',' = (cs.splitOn ',').modifyHead (' ' :: ·) := by
    rw [List.splitOn_cons_eq_if_modifyHead]
    rfl
  rw [readDirectives, readDirectives, hcons]
  cases cs.splitOn ',' with
  | nil => rfl
  | cons part parts =>
    show readDirective (' ' :: part) :: _ = readDirective part :: _
    rw [readDirective, readDirective, trim_blank]

/-- The text neither begins nor ends with a blank. -/
theorem writeDirectives_ends (hne : ds ≠ []) (h : ∀ d ∈ ds, d.WellFormed) :
    writeDirectives ds ≠ [] ∧ (∀ c ∈ (writeDirectives ds).head?, isOws c = false) ∧
      ∀ c ∈ (writeDirectives ds).getLast?, isOws c = false := by
  induction ds with
  | nil => exact absurd rfl hne
  | cons d ds ih =>
    have hd := h d List.mem_cons_self
    have hplain : ∀ c ∈ writeDirective d, isOws c = false :=
      fun c hc => (mem_writeDirective hd hc).1
    have hnil := writeDirective_ne_nil hd
    by_cases hds : ds = []
    · subst hds
      rw [show writeDirectives [d] = writeDirective d by simp [writeDirectives]]
      exact ⟨hnil, fun c hc => hplain c (List.mem_of_mem_head? hc),
        fun c hc => hplain c (List.mem_of_getLast? hc)⟩
    · obtain ⟨hrest, -, hlast⟩ := ih hds fun e he => h e (List.mem_cons_of_mem _ he)
      rw [writeDirectives_cons d hds]
      refine ⟨by simp, ?_, ?_⟩
      · rw [List.head?_append_of_ne_nil _ hnil]
        exact fun c hc => hplain c (List.mem_of_mem_head? hc)
      · rw [List.getLast?_append_of_ne_nil _ (by simp), List.getLast?_cons_of_ne_nil (by simp),
          List.getLast?_cons_of_ne_nil hrest]
        exact hlast

/-- **The directives are read as they were written.** -/
theorem readDirectives_write (hne : ds ≠ []) (h : ∀ d ∈ ds, d.WellFormed) :
    readDirectives (trim (writeDirectives ds)) = ds := by
  obtain ⟨-, hhead, hlast⟩ := writeDirectives_ends hne h
  rw [trim_eq_self hhead hlast]
  clear hhead hlast
  induction ds with
  | nil => exact absurd rfl hne
  | cons d ds ih =>
    have hd := h d List.mem_cons_self
    have hcomma : ',' ∉ writeDirective d := fun hmem => (mem_writeDirective hd hmem).2 rfl
    by_cases hds : ds = []
    · subst hds
      rw [show writeDirectives [d] = writeDirective d by simp [writeDirectives], readDirectives,
        List.splitOn_eq_singleton hcomma, List.map_singleton, readDirective_write hd]
    · have hrest := ih hds fun e he => h e (List.mem_cons_of_mem _ he)
      rw [← readDirectives_blank, readDirectives] at hrest
      rw [writeDirectives_cons d hds, readDirectives,
        List.splitOn_append_cons_self_of_not_mem hcomma, List.map_cons, readDirective_write hd,
        hrest]

/-- What holds of the characters of the directives, and of what stands between them. -/
theorem forall_mem_writeDirectives {P : Char → Prop} (hcomma : P ',') (hblank : P ' ')
    (hequals : P '=') (h : ∀ d ∈ ds, (∀ c ∈ d.1, P c) ∧ ∀ c ∈ d.2, P c) :
    ∀ c ∈ writeDirectives ds, P c := by
  have hone : ∀ d ∈ ds, ∀ c ∈ writeDirective d, P c := by
    intro d hd c hc
    rw [writeDirective] at hc
    split at hc
    · exact (h d hd).1 c hc
    · rcases List.mem_append.mp hc with hc | hc
      · exact (h d hd).1 c hc
      · rcases List.mem_cons.mp hc with rfl | hc
        · exact hequals
        · exact (h d hd).2 c hc
  clear h
  induction ds with
  | nil => simp [writeDirectives]
  | cons d ds ih =>
    intro c hc
    by_cases hds : ds = []
    · subst hds
      exact hone d List.mem_cons_self c (by simpa [writeDirectives] using hc)
    · rw [writeDirectives_cons d hds] at hc
      rcases List.mem_append.mp hc with hc | hc
      · exact hone d List.mem_cons_self c hc
      · rcases List.mem_cons.mp hc with rfl | hc
        · exact hcomma
        · rcases List.mem_cons.mp hc with rfl | hc
          · exact hblank
          · exact ih (fun e he => hone e (List.mem_cons_of_mem _ he)) c hc

/-! ## What a cache may do -/

namespace Cache

variable (c : Cache)

def control (r : Response) : List Directive := directives (readFields c.lone r.message)

/-- How long a response is fresh, if it says so. -/
def lifetime (ds : List Directive) : Option Nat :=
  let arg := if c.shared then (argument "s-maxage" ds).or (argument "max-age" ds)
    else argument "max-age" ds
  arg.map fun arg => min (deltaSeconds arg) c.longest

def Storable (ds : List Directive) : Prop :=
  has "no-store" ds = false ∧ (c.shared = true → has "private" ds = false)

/-- Of a response that says nothing a cache may think what it likes. -/
def Fresh (ds : List Directive) (age : Nat) : Prop := ∀ n, c.lifetime ds = some n → age < n

/-- It may use the response at time `t` without asking. -/
structure MayReuse (r : Response) (t : Int) : Prop where
  storable : c.Storable (c.control r)
  validated : has "no-cache" (c.control r) = false
  fresh : c.Fresh (c.control r) (t - r.date).toNat

inductive Event where
  | receive (r : Response)
  | forget
  | reuse (r : Response) (t : Int)

/-- A cache may store what it receives and may drop what it holds at any time. -/
inductive Step : List Response → Event → List Response → Prop where
  | store {held : List Response} {r : Response} (h : c.Storable (c.control r)) :
      Step held (.receive r) (r :: held)
  | pass {held : List Response} {r : Response} : Step held (.receive r) held
  | forget {held held' : List Response} (h : held' ⊆ held) : Step held .forget held'
  | reuse {held : List Response} {r : Response} {t : Int} (hheld : r ∈ held)
      (h : c.MayReuse r t) : Step held (.reuse r t) held

variable {c} {held held' : List Response} {es : List Event}

/-- What a cache holds it has received and was allowed to store. -/
theorem mem_of_run (h : Run c.Step held es held') :
    ∀ r ∈ held', r ∈ held ∨ .receive r ∈ es ∧ c.Storable (c.control r) := by
  induction h with
  | nil => exact fun r hr => .inl hr
  | cons step _ ih =>
    intro r hr
    rcases ih r hr with hr | ⟨hr, hstorable⟩
    · cases step with
      | store hs =>
        rcases List.mem_cons.mp hr with rfl | hr
        · exact .inr ⟨List.mem_cons_self, hs⟩
        · exact .inl hr
      | pass => exact .inl hr
      | forget hsub => exact .inl (hsub hr)
      | reuse _ _ => exact .inl hr
    · exact .inr ⟨List.mem_cons_of_mem _ hr, hstorable⟩

/-- **What is used again has been received before**, and may be used. -/
theorem reused_of_run {before after : List Event} {r : Response} {t : Int}
    (h : Run c.Step [] (before ++ .reuse r t :: after) held') :
    .receive r ∈ before ∧ c.MayReuse r t := by
  obtain ⟨held₁, held₂, hbefore, hstep, -⟩ := h.split
  cases hstep with
  | reuse hheld hmay =>
    have hreceived := mem_of_run hbefore r hheld
    exact ⟨(hreceived.resolve_left List.not_mem_nil).1, hmay⟩

end Cache

end Http
