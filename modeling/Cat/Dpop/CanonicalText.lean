import Cat.Dpop.Honest
import Cat.Lib.Splitting

/-!
# The canonical text of a key

The thumbprint is taken over a JSON object that is put together from the members as they came,
with no escapes. No member that may hold a quote gets that far, so the text is read back in one
way only: names and values end at their quotes, and the names tell the key types apart.

An injective text is what a thumbprint has to be taken over. Were two keys to have one text,
they would have one thumbprint whatever the hash, and a token bound to one of them would be
bound to the other. That the text is injective rests on the checks made of the members on the
way, for the characters of base64url or for quotes, and on the fixed names: the proof reads the
text back name by name, and a value without quotes cannot run into the next name.
-/

set_option autoImplicit false

namespace Cat

open Cbor

namespace Jwk

/-! ## Objects of quoted members -/

/-- Nothing in the text ends a JSON string or starts an escape. -/
def Quotable (s : String) : Prop := '"' ∉ s.toList ∧ '\\' ∉ s.toList

/-- The text of an object, by the names and values of its members. -/
def objectText (members : List (String × String)) : String :=
  canonicalObject (members.map fun m => canonicalMember m.1 m.2)

/-- The object from its second member on. -/
def restText : List (String × String) → List Char
  | [] => ['\x7d']
  | m :: members => ',' :: (canonicalMember m.1 m.2).toList ++ restText members

def QuotableMembers (members : List (String × String)) : Prop :=
  ∀ m ∈ members, Quotable m.1 ∧ Quotable m.2

/-- What is quoted ends at the next quote. -/
theorem quoted_inj {a a' r r' : List Char} (h : '"' ∉ a) (h' : '"' ∉ a') :
    a ++ '"' :: r = a' ++ '"' :: r' ↔ a = a' ∧ r = r' := by
  constructor
  · intro heq
    -- both lists are cut at their first quote
    have hsplit := congrArg (List.splitOnce '"') heq
    rw [List.splitOnce_append h, List.splitOnce_append h'] at hsplit
    exact Prod.mk.inj (Option.some.inj hsplit)
  · intro heq
    rw [heq.1, heq.2]

/-- A member is read back from the front of what follows it. -/
theorem member_inj {m m' : String × String} {r r' : List Char} (hm : Quotable m.1 ∧ Quotable m.2)
    (hm' : Quotable m'.1 ∧ Quotable m'.2) :
    (canonicalMember m.1 m.2).toList ++ r = (canonicalMember m'.1 m'.2).toList ++ r' ↔
      m = m' ∧ r = r' := by
  have htext : ∀ (m : String × String) (r : List Char), (canonicalMember m.1 m.2).toList ++ r =
      '"' :: (m.1.toList ++ '"' :: (":\"".toList ++ (m.2.toList ++ '"' :: r))) := by
    intro m r
    simp [canonicalMember]
  rw [htext, htext, List.cons_inj_right, quoted_inj hm.1.1 hm'.1.1, List.append_cancel_left_eq,
    quoted_inj hm.2.1 hm'.2.1, String.toList_inj, String.toList_inj, Prod.ext_iff, and_assoc]

theorem restText_inj {ms ms' : List (String × String)} (h : QuotableMembers ms)
    (h' : QuotableMembers ms') (heq : restText ms = restText ms') : ms = ms' := by
  induction ms generalizing ms' with
  | nil =>
    cases ms' with
    | nil => rfl
    | cons m' ms' => exact absurd (List.cons.inj heq).1 (by decide)
  | cons m ms ih =>
    cases ms' with
    | nil => exact absurd (List.cons.inj heq).1 (by decide)
    | cons m' ms' =>
      obtain ⟨hm, hms⟩ := List.forall_mem_cons.mp h
      obtain ⟨hm', hms'⟩ := List.forall_mem_cons.mp h'
      obtain ⟨rfl, hrest⟩ := (member_inj hm hm').mp (List.cons.inj heq).2
      rw [ih hms hms' hrest]

theorem objectText_cons (m : String × String) (ms : List (String × String)) :
    (objectText (m :: ms)).toList =
      '\x7b' :: ((canonicalMember m.1 m.2).toList ++ restText ms) := by
  have hjoin : ∀ (s : String) (ms : List (String × String)),
      (String.intercalate "," (s :: ms.map fun m => canonicalMember m.1 m.2)).toList ++ ['\x7d'] =
        s.toList ++ restText ms := by
    intro s ms
    induction ms generalizing s with
    | nil => simp [restText]
    | cons m ms ih => simp [restText, ← ih]
  rw [← hjoin]
  simp [objectText, canonicalObject]

/-- **An object has the text of no other**, as long as no name or value holds a quote. -/
theorem objectText_inj {m m' : String × String} {ms ms' : List (String × String)}
    (h : QuotableMembers (m :: ms)) (h' : QuotableMembers (m' :: ms')) :
    objectText (m :: ms) = objectText (m' :: ms') ↔ m :: ms = m' :: ms' := by
  obtain ⟨hm, hms⟩ := List.forall_mem_cons.mp h
  obtain ⟨hm', hms'⟩ := List.forall_mem_cons.mp h'
  constructor
  · intro heq
    rw [← String.toList_inj, objectText_cons, objectText_cons, List.cons_inj_right,
      member_inj hm hm'] at heq
    rw [heq.1, restText_inj hms hms' heq.2]
  · exact congrArg objectText

/-! ## Keys that are accepted -/

/-- The members that the canonical text of a key is made of. -/
def requiredMembers (k : Jwk) : List (String × Option String) :=
  if k.kty = "EC" then [("crv", k.crv), ("x", k.x), ("y", k.y)]
  else if k.kty = "RSA" then [("e", k.e), ("n", k.n)]
  else []

/-- What the canonical text says of a key. -/
inductive Description where
  | elliptic (crv x y : String)
  | rsa (e n : String)

def Description.members : Description → List (String × String)
  | .elliptic crv x y => [("crv", crv), ("kty", "EC"), ("x", x), ("y", y)]
  | .rsa e n => [("e", e), ("kty", "RSA"), ("n", n)]

def Description.text (d : Description) : String := objectText d.members

/-- The key has this type, and has these members. -/
def Description.Of (k : Jwk) : Description → Prop
  | .elliptic crv x y => k.kty = "EC" ∧ k.crv = some crv ∧ k.x = some x ∧ k.y = some y
  | .rsa e n => k.kty = "RSA" ∧ k.e = some e ∧ k.n = some n

def Description.Quotable : Description → Prop
  | .elliptic crv x y => Jwk.Quotable crv ∧ Jwk.Quotable x ∧ Jwk.Quotable y
  | .rsa e n => Jwk.Quotable e ∧ Jwk.Quotable n

theorem Description.Quotable.members {d : Description} (h : d.Quotable) :
    QuotableMembers d.members := by
  have hname : Jwk.Quotable "crv" ∧ Jwk.Quotable "kty" ∧ Jwk.Quotable "EC" ∧
      Jwk.Quotable "RSA" ∧ Jwk.Quotable "x" ∧ Jwk.Quotable "y" ∧ Jwk.Quotable "e" ∧
      Jwk.Quotable "n" := by
    unfold Jwk.Quotable
    decide +kernel
  cases d with
  | elliptic crv x y =>
    obtain ⟨hcrv, hx, hy⟩ := h
    simp [QuotableMembers, Description.members, *]
  | rsa e n =>
    obtain ⟨he, hn⟩ := h
    simp [QuotableMembers, Description.members, *]

/-- Objects of different key types start with different names. -/
theorem Description.text_inj {d d' : Description} (h : d.Quotable) (h' : d'.Quotable) :
    d.text = d'.text ↔ d = d' := by
  have hmembers : d.members = d'.members ↔ d = d' := by
    cases d <;> cases d' <;> simp [Description.members]
  rw [← hmembers]
  cases d <;> cases d' <;> exact objectText_inj h.members h'.members

theorem quotable_of_base64urlSafe {s fieldName : String}
    (h : validateBase64urlSafe s fieldName = .ok ()) : Quotable s := by
  unfold validateBase64urlSafe at h
  cases hfind : s.toList.find? fun c => !(c.isAlphanum || c == '-' || c == '_') with
  | some c =>
    rw [hfind] at h
    cases h
  | none =>
    have hsafe := List.find?_eq_none.mp hfind
    exact ⟨fun hquote => hsafe _ hquote (by decide), fun hslash => hsafe _ hslash (by decide)⟩

/-- A key that is accepted has a description that can be quoted, and its text. -/
theorem description_of_canonicalJson {k : Jwk} {c : String} (h : k.canonicalJson = .ok c) :
    ∃ d, Description.Of k d ∧ d.Quotable ∧ c = d.text := by
  unfold canonicalJson at h
  split at h
  · rename_i hkty
    simp only [Except.bind_eq_ok, required_eq_ok] at h
    obtain ⟨crv, hcrv, x, hx, y, hy, u, hxSafe, v, hySafe, h⟩ := h
    obtain ⟨hquotes, rfl⟩ := Except.check_eq_ok.mp h
    have hcrvSafe : Quotable crv := by
      constructor
      · intro hquote
        exact hquotes (by simp [hquote])
      · intro hslash
        exact hquotes (by simp [hslash])
    exact ⟨.elliptic crv x y, ⟨hkty, hcrv, hx, hy⟩,
      ⟨hcrvSafe, quotable_of_base64urlSafe hxSafe, quotable_of_base64urlSafe hySafe⟩, rfl⟩
  · split at h
    · rename_i hkty
      simp only [Except.bind_eq_ok, required_eq_ok] at h
      obtain ⟨e, he, n, hn, u, heSafe, v, hnSafe, h⟩ := h
      obtain rfl := Except.pure_eq_ok.mp h
      exact ⟨.rsa e n, ⟨hkty, he, hn⟩,
        ⟨quotable_of_base64urlSafe heSafe, quotable_of_base64urlSafe hnSafe⟩, rfl⟩
    · cases h

/-- Descriptions say of the keys what their members are. -/
theorem description_inj {j k : Jwk} {d d' : Description} (hd : Description.Of j d)
    (hd' : Description.Of k d') :
    d = d' ↔ j.kty = k.kty ∧ j.requiredMembers = k.requiredMembers := by
  cases d with
  | elliptic crv x y =>
    obtain ⟨hkty, hcrv, hx, hy⟩ := hd
    cases d' with
    | elliptic crv' x' y' =>
      obtain ⟨hkty', hcrv', hx', hy'⟩ := hd'
      simp [requiredMembers, *]
    | rsa e n =>
      obtain ⟨hkty', -⟩ := hd'
      simp [hkty, hkty']
  | rsa e n =>
    obtain ⟨hkty, he, hn⟩ := hd
    cases d' with
    | elliptic crv x y =>
      obtain ⟨hkty', -⟩ := hd'
      simp [hkty, hkty']
    | rsa e' n' =>
      obtain ⟨hkty', he', hn'⟩ := hd'
      simp [requiredMembers, *]

/-- **The canonical text is injective**: what the thumbprint is taken over is shared exactly by
    the keys of one type with the same required members.

    The text is put together by hand, so what keeps two keys apart is what a member may not hold: it
    is made of the characters of base64, and the name of a curve has no quote and no backslash. -/
theorem canonicalJson_injective {j k : Jwk} {c c' : String} (hj : j.canonicalJson = .ok c)
    (hk : k.canonicalJson = .ok c') :
    utf8 c = utf8 c' ↔ j.kty = k.kty ∧ j.requiredMembers = k.requiredMembers := by
  obtain ⟨d, hd, hquotable, rfl⟩ := description_of_canonicalJson hj
  obtain ⟨d', hd', hquotable', rfl⟩ := description_of_canonicalJson hk
  rw [← description_inj hd hd', ← Description.text_inj hquotable hquotable']
  exact ⟨utf8_inj, congrArg utf8⟩

/-- A key whose curve has a name with commas, colons and a line break. -/
def commaCurve : Jwk :=
  { kty := "EC", crv := some "P-256,kty:EC,\nx:AA", x := some "BB", y := some "CC" }

/-- One with the members of an RSA key besides. -/
def commaCurveWithNumbers : Jwk := { commaCurve with n := some "\"", e := some "AQAB" }

def commaText : String :=
  "\x7b\"crv\":\"P-256,kty:EC,\nx:AA\",\"kty\":\"EC\",\"x\":\"BB\",\"y\":\"CC\"\x7d"

theorem canonicalJson_injective_commas :
    (commaCurve.canonicalJson = .ok commaText ∧
      commaCurveWithNumbers.canonicalJson = .ok commaText) ∧
      (utf8 commaText = utf8 commaText ↔ commaCurve.kty = commaCurveWithNumbers.kty ∧
        commaCurve.requiredMembers = commaCurveWithNumbers.requiredMembers) := by
  have hfirst : commaCurve.canonicalJson = .ok commaText := by rfl
  have hsecond : commaCurveWithNumbers.canonicalJson = .ok commaText := by rfl
  exact ⟨⟨hfirst, hsecond⟩, canonicalJson_injective hfirst hsecond⟩

end Jwk
end Cat
