namespace SqlTyping.Text

/-!
# Quoted strings

A character string is written between single quotes, with every quote inside it written twice.

* `Quoted.encode` — the content with its quotes doubled; `Quoted.write` adds the delimiters;
* `Quoted.read?` — the standard reader: the first unpaired quote closes, the text behind it is
  handed back. Reading what was written gives the content and the rest (`read?_write`).
-/

namespace Quoted

/-- The content with every quote written twice. -/
def encode : List Char → List Char
  | [] => []
  -- Only the quote needs care; backslashes and line ends stand for themselves.
  | c :: rest => if c = '\'' then '\'' :: '\'' :: encode rest else c :: encode rest

/-- The content between quotes. -/
def write (s : List Char) : List Char := '\'' :: (encode s ++ ['\''])

/-- Reads up to the first unpaired quote: the content, and the text behind that quote. -/
def body? : List Char → Option (List Char × List Char)
  | [] => none
  | '\'' :: '\'' :: rest => (body? rest).map fun (s, t) => ('\'' :: s, t)
  | '\'' :: rest => some ([], rest)
  | c :: rest => (body? rest).map fun (s, t) => (c :: s, t)

/-- Reads a quoted string at the start of a text. -/
def read? : List Char → Option (List Char × List Char)
  | '\'' :: rest => body? rest
  | _ => none

/-- A character other than a quote stands for itself. -/
theorem body?_cons {c : Char} (h : c ≠ '\'') (rest : List Char) :
    body? (c :: rest) = (body? rest).map fun (s, t) => (c :: s, t) := by
  cases rest <;> simp [body?, h]

/-- An unpaired quote closes. -/
theorem body?_close {rest : List Char} (h : rest.head? ≠ some '\'') :
    body? ('\'' :: rest) = some ([], rest) := by
  cases rest with
  | nil => rfl
  | cons c r =>
    have hc : c ≠ '\'' := by simpa using h
    simp [body?, hc]

/-- The doubled content is read back up to the closing quote. -/
theorem body?_encode_append (s : List Char) {rest : List Char} (h : rest.head? ≠ some '\'') :
    body? (encode s ++ '\'' :: rest) = some (s, rest) := by
  induction s with
  | nil => simpa [encode] using body?_close h
  | cons c r ih =>
    by_cases hc : c = '\''
    · subst hc
      simp [encode, body?, ih]
    · simp only [encode, if_neg hc, List.cons_append]
      rw [body?_cons hc, ih]
      rfl

/-- A quoted string is read back whole, and reading stops right behind its closing quote. -/
theorem read?_write (s : List Char) {rest : List Char} (h : rest.head? ≠ some '\'') :
    read? (write s ++ rest) = some (s, rest) := by
  simp [write, read?, body?_encode_append s h]

end Quoted

end SqlTyping.Text
