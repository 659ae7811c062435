import Cat.Token.EnforceSpec

/-!
# Rules about headers that come more than once

A rule of `cath` is met when some request header of its name has a value that one of the rule's
matches accepts, whichever header comes first. `validate_all_headers` looks at the first header
of the name only. The two agree, and the order of the headers does not count, exactly when a
request that meets every rule has no header of a rule's name beside it that fails the rule.

The verdict is compared over all permutations of a request at once. Every header can be put in
front, and is then the first one of its name: so if all orders pass, no header of a rule's name
fails the rule. The other way round, where none fails it does not matter which one comes first.
The condition is on the request and mentions no order.
-/

set_option autoImplicit false

namespace Cat

open Cbor

namespace HeaderMatchRule

/-- The header has the rule's name, in any case. -/
def Names (rule : HeaderMatchRule) (header : String × String) : Prop :=
  eqIgnoreAsciiCase rule.name.toList header.1.toList = true

/-- One of the rule's matches accepts the unfolded value. -/
def Accepts (H : Host) (rule : HeaderMatchRule) (header : String × String) : Prop :=
  ∃ mv ∈ rule.matches_, applyMatchValue H mv (unfoldHeaderValue header.2.toList) = true

end HeaderMatchRule

section
variable {H : Host} {token : CatToken} {rules : List HeaderMatchRule}
  {headers headers' : List (String × String)}

/-- Every rule is met by some header of its name. -/
def SomeHeaderMeets (H : Host) (rules : List HeaderMatchRule)
    (headers : List (String × String)) : Prop :=
  ∀ rule ∈ rules, ∃ h ∈ headers, rule.Names h ∧ rule.Accepts H h

/-- Every header of a rule's name meets the rule. -/
def NoHeaderFails (H : Host) (rules : List HeaderMatchRule)
    (headers : List (String × String)) : Prop :=
  ∀ rule ∈ rules, ∀ h ∈ headers, rule.Names h → rule.Accepts H h

theorem SomeHeaderMeets.perm (h : SomeHeaderMeets H rules headers)
    (hperm : headers'.Perm headers) : SomeHeaderMeets H rules headers' := by
  intro rule hrule
  obtain ⟨header, hheader, hmet⟩ := h rule hrule
  exact ⟨header, hperm.mem_iff.mpr hheader, hmet⟩

theorem NoHeaderFails.perm (h : NoHeaderFails H rules headers)
    (hperm : headers'.Perm headers) : NoHeaderFails H rules headers' := by
  intro rule hrule header hheader
  exact h rule hrule header (hperm.mem_iff.mp hheader)

/-! ## The first header of a name -/

/-- What the first header of each name meets, some header meets. -/
theorem CathMet.someHeaderMeets (h : CathMet H rules headers) :
    SomeHeaderMeets H rules headers := by
  intro rule hrule
  obtain ⟨header, hfirst, haccepts⟩ := h rule hrule
  have hname := List.find?_some hfirst
  exact ⟨header, List.mem_of_find?_eq_some hfirst, hname, haccepts⟩

/-- Where no header fails, the first one of a name is as good as any other. -/
theorem SomeHeaderMeets.cathMet (h : SomeHeaderMeets H rules headers)
    (hnone : NoHeaderFails H rules headers) : CathMet H rules headers := by
  intro rule hrule
  obtain ⟨header, hheader, hname, -⟩ := h rule hrule
  cases hfirst : headers.find? fun h => eqIgnoreAsciiCase rule.name.toList h.1.toList with
  | none => exact absurd hname (List.find?_eq_none.mp hfirst header hheader)
  | some first =>
    have hname := List.find?_some hfirst
    exact ⟨first, rfl, hnone rule hrule first (List.mem_of_find?_eq_some hfirst) hname⟩

/-- The header at the front is the first one of its name. -/
theorem CathMet.accepts_head {header : String × String} (h : CathMet H rules (header :: headers))
    {rule : HeaderMatchRule} (hrule : rule ∈ rules) (hname : rule.Names header) :
    rule.Accepts H header := by
  obtain ⟨first, hfirst, haccepts⟩ := h rule hrule
  rw [List.find?_cons, show eqIgnoreAsciiCase rule.name.toList header.1.toList = true from hname]
    at hfirst
  obtain rfl := Option.some.inj hfirst
  exact haccepts

/-- A request that passes in every order of its headers has none that fails: each of them
    can be put in front. -/
theorem noHeaderFails_of_perm
    (h : ∀ headers' : List (String × String), headers'.Perm headers → CathMet H rules headers') :
    NoHeaderFails H rules headers := by
  intro rule hrule header hheader hname
  have hfront : CathMet H rules (header :: headers.erase header) :=
    h _ (List.perm_cons_erase hheader).symm
  exact hfront.accepts_head hrule hname

/-- **The verdict is the reference verdict, in every order of the headers, exactly when the
    requests that meet every rule have no header that fails one.**

    The code judges the first header of a rule's name and no other, so what a second one says is
    lost, and which is the first depends on the order. The reference verdict asks whether some
    header of the name matches. -/
theorem validateAllHeaders_reference_iff (H : Host) (token : CatToken)
    (headers : List (String × String)) :
    ((validateAllHeaders H token headers = .ok () ↔
          ∀ rules ∈ token.cat.cath, SomeHeaderMeets H rules headers) ∧
        ∀ headers' : List (String × String), headers'.Perm headers →
          (validateAllHeaders H token headers' = .ok () ↔
            validateAllHeaders H token headers = .ok ())) ↔
      ∀ rules ∈ token.cat.cath,
        SomeHeaderMeets H rules headers → NoHeaderFails H rules headers := by
  simp only [validateAllHeaders_ok]
  cases token.cat.cath with
  | none => simp
  | some rules =>
    simp only [Option.mem_def, Option.some.injEq, forall_eq']
    constructor
    · intro h hmeets
      apply noHeaderFails_of_perm
      intro headers' hperm
      exact (h.2 headers' hperm).mpr (h.1.mpr hmeets)
    · intro hnone
      -- both sides of the permutation are compared with the reference
      have hiff : ∀ headers' : List (String × String), headers'.Perm headers →
          (CathMet H rules headers' ↔ SomeHeaderMeets H rules headers) := by
        intro headers' hperm
        constructor
        · intro h
          exact h.someHeaderMeets.perm hperm.symm
        · intro h
          exact (h.perm hperm).cathMet ((hnone h).perm hperm)
      refine ⟨hiff headers (.refl _), ?_⟩
      intro headers' hperm
      exact (hiff headers' hperm).trans (hiff headers (.refl _)).symm

end

/-- A rule that takes `b` for the header `x`. -/
def takesB : HeaderMatchRule := ⟨"x", [.exact "b"]⟩

def takesBToken : CatToken := { CatToken.new with cat := { cath := some [takesB] } }

theorem takesB_names {name value : String} (h : eqIgnoreAsciiCase ['x'] name.toList = true) :
    takesB.Names (name, value) := h

theorem takesB_accepts {name value : String} :
    takesB.Accepts Host.reference (name, value) ↔ unfoldHeaderValue value.toList = ['b'] := by
  unfold HeaderMatchRule.Accepts takesB
  simp [applyMatchValue]

/-- Of the headers `x: a` and `X: b` the second one meets the rule, and the request is refused
    until the two change places. -/
theorem validateAllHeaders_not_reference :
    ¬(validateAllHeaders Host.reference takesBToken [("x", "a"), ("X", "b")] = .ok () ↔
        ∀ rules ∈ takesBToken.cat.cath,
          SomeHeaderMeets Host.reference rules [("x", "a"), ("X", "b")]) ∧
      ¬(validateAllHeaders Host.reference takesBToken [("X", "b"), ("x", "a")] = .ok () ↔
        validateAllHeaders Host.reference takesBToken [("x", "a"), ("X", "b")] = .ok ()) := by
  have hmet : takesB.Accepts Host.reference ("X", "b") := takesB_accepts.mpr (by decide +kernel)
  have hupper : takesB.Names ("X", "b") := takesB_names (by decide +kernel)
  have hlower : takesB.Names ("x", "a") := takesB_names (by decide +kernel)
  have hrefused :
      validateAllHeaders Host.reference takesBToken [("x", "a"), ("X", "b")] ≠ .ok () := by
    intro h
    have hfirst := (validateAllHeaders_ok.mp h [takesB] rfl).accepts_head
      (List.mem_singleton.mpr rfl) hlower
    exact absurd (takesB_accepts.mp hfirst) (by decide +kernel)
  constructor
  · intro h
    apply hrefused
    apply h.mpr
    intro rules hrules rule hrule
    obtain rfl := Option.some.inj hrules
    obtain rfl := List.mem_singleton.mp hrule
    exact ⟨("X", "b"), by simp, hupper, hmet⟩
  · intro h
    apply hrefused
    apply h.mp
    rw [validateAllHeaders_ok]
    intro rules hrules rule hrule
    obtain rfl := Option.some.inj hrules
    obtain rfl := List.mem_singleton.mp hrule
    refine ⟨("X", "b"), ?_, hmet⟩
    rw [List.find?_cons, show eqIgnoreAsciiCase takesB.name.toList ("X", "b").1.toList = true from
      hupper]

end Cat
