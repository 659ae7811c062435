import Cat.Lib.Splitting
import Cat.Lib.StructuredFields.Parse

/-!
# HTTP fields

A field section as it is sent (RFC 9112) and what a recipient reads of it. A recipient takes
CRLF for the end of a line and may take further characters, a lone LF say, for one too. It reads
the fields that were written if none of their characters is such an end and their names have no
colon: no value adds a field or ends the section.

Which lone characters end a line differs between recipients, and it is a parameter. A sender
that wants to be read alike by all of them has to keep such characters out of its values, and
`readFields_write` is for any set of them. The statement has text after the fields, so that it
holds of a message with a body.
-/

set_option autoImplicit false

namespace Http

open StructuredFields (isOws)

/-- A name and a value. -/
abbrev Field := List Char × List Char

def writeField (f : Field) : List Char := f.1 ++ ':' :: ' ' :: (f.2 ++ ['\r', '\n'])

/-- The fields, and the empty line after them. -/
def writeFields (fs : List Field) : List Char := fs.flatMap writeField ++ ['\r', '\n']

section
variable (lone : Char → Bool)

/-- The lines of a text. Besides CRLF each lone character of a kind ends one. -/
def lines : List Char → List (List Char)
  | [] => [[]]
  | '\r' :: '\n' :: cs => [] :: lines cs
  | c :: cs => if lone c then [] :: lines cs else (lines cs).modifyHead (c :: ·)

end

def trim (cs : List Char) : List Char :=
  ((cs.dropWhile isOws).reverse.dropWhile isOws).reverse

/-- The name in lower case, and the value without blanks around it. -/
def readField (line : List Char) : Option Field :=
  (line.splitOnce ':').map fun p => (p.1.map Char.toLower, trim p.2)

/-- The fields of a message, up to the first empty line. -/
def readFields (lone : Char → Bool) (message : List Char) : List Field :=
  ((lines lone message).takeWhile (· ≠ [])).filterMap readField

/-- A field without characters that end its line, or its name. -/
structure WellFormed (lone : Char → Bool) (f : Field) : Prop where
  name : ∀ c ∈ f.1, c ≠ '\r' ∧ lone c = false ∧ c ≠ ':'
  value : ∀ c ∈ f.2, c ≠ '\r' ∧ lone c = false

variable {lone : Char → Bool} {f : Field} {fs : List Field}

theorem lines_cons {c : Char} (hc : c ≠ '\r') (hlone : lone c = false) (cs : List Char) :
    lines lone (c :: cs) = (lines lone cs).modifyHead (c :: ·) := by
  rw [lines.eq_def]
  split
  · rename_i heq
    exact absurd heq (by simp)
  · rename_i heq
    exact absurd (List.cons.inj heq).1 hc
  · rename_i heq
    obtain ⟨rfl, rfl⟩ := List.cons.inj heq
    rw [hlone]
    rfl

/-- A line that nothing in it ends. -/
theorem lines_append {line : List Char} (h : ∀ c ∈ line, c ≠ '\r' ∧ lone c = false)
    (rest : List Char) :
    lines lone (line ++ '\r' :: '\n' :: rest) = line :: lines lone rest := by
  induction line with
  | nil => rw [List.nil_append, lines]
  | cons c line ih =>
    obtain ⟨hc, hlone⟩ := h c List.mem_cons_self
    rw [List.cons_append, lines_cons hc hlone,
      ih fun d hd => h d (List.mem_cons_of_mem _ hd)]
    rfl

theorem trim_blank (cs : List Char) : trim (' ' :: cs) = trim cs := rfl

/-- There is nothing to trim where neither end is blank. -/
theorem trim_eq_self {cs : List Char} (hhead : ∀ c ∈ cs.head?, isOws c = false)
    (hlast : ∀ c ∈ cs.getLast?, isOws c = false) : trim cs = cs := by
  have hnil : ∀ c ∈ ([] : List Char), isOws c = true := by simp
  have hfront : cs.dropWhile isOws = cs := List.dropWhile_run hnil hhead
  have hlast' : ∀ c ∈ cs.reverse.head?, isOws c = false := by rwa [List.head?_reverse]
  have hback : cs.reverse.dropWhile isOws = cs.reverse := List.dropWhile_run hnil hlast'
  rw [trim, hfront, hback, List.reverse_reverse]

/-- What is read of a line that was written for a field. -/
theorem readField_write (h : WellFormed lone f) :
    readField (f.1 ++ ':' :: ' ' :: f.2) = some (f.1.map Char.toLower, trim f.2) := by
  have hcolon : ':' ∉ f.1 := fun hmem => (h.name ':' hmem).2.2 rfl
  rw [readField, List.splitOnce_append hcolon]
  rfl

/-- **The fields are read as they were written**, whatever comes after them. -/
theorem readFields_write (hblank : lone ' ' = false) (hcolon : lone ':' = false)
    (h : ∀ f ∈ fs, WellFormed lone f) (body : List Char) :
    readFields lone (writeFields fs ++ body) =
      fs.map fun f => (f.1.map Char.toLower, trim f.2) := by
  induction fs with
  | nil =>
    rw [readFields, show writeFields [] ++ body = '\r' :: '\n' :: body from rfl, lines]
    rfl
  | cons f fs ih =>
    have hf := h f List.mem_cons_self
    have hline : ∀ c ∈ f.1 ++ ':' :: ' ' :: f.2, c ≠ '\r' ∧ lone c = false := by
      intro c hc
      rcases List.mem_append.mp hc with hc | hc
      · exact ⟨(hf.name c hc).1, (hf.name c hc).2.1⟩
      · rcases List.mem_cons.mp hc with rfl | hc
        · exact ⟨by decide, hcolon⟩
        · rcases List.mem_cons.mp hc with rfl | hc
          · exact ⟨by decide, hblank⟩
          · exact hf.value c hc
    have hsplit : writeFields (f :: fs) ++ body =
        (f.1 ++ ':' :: ' ' :: f.2) ++ '\r' :: '\n' :: (writeFields fs ++ body) := by
      simp [writeFields, writeField]
    have hne : f.1 ++ ':' :: ' ' :: f.2 ≠ [] := by simp
    have hrest := ih fun g hg => h g (List.mem_cons_of_mem _ hg)
    rw [readFields] at hrest
    rw [readFields, hsplit, lines_append hline, List.takeWhile_cons_of_pos (by simp [hne]),
      List.filterMap_cons_some (readField_write hf), hrest]
    rfl

end Http
