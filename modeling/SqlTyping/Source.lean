namespace SqlTyping

/-!
# Places in the statement text

* `Span` — a range of byte offsets;
* `Location` — a line and a column with the range they were computed from;
* `lineColumn` — the line and column of a byte offset, both counted from 1, columns in characters.
  An offset inside a character counts as the place behind it, one past the end as the end.
-/

/-- A range of byte offsets: `start` belongs to it, `stop` does not. -/
structure Span where
  start : Nat
  stop : Nat
  deriving DecidableEq, Repr

namespace Span

/-- The span of nodes that were not written in the text. -/
def synthetic : Span := ⟨0, 0⟩

instance : Inhabited Span := ⟨synthetic⟩

/-- The number of bytes; a reversed span has none. -/
def length (s : Span) : Nat := s.stop - s.start

/-- Whether the span covers nothing. -/
def isEmpty (s : Span) : Bool := s.stop ≤ s.start

/-- A span is empty exactly when it has no bytes. -/
theorem isEmpty_iff (s : Span) : s.isEmpty = true ↔ s.length = 0 := by
  simp [isEmpty, length]
  omega

/-- The span as its two offsets. -/
def text (s : Span) : String := s!"{s.start}..{s.stop}"

end Span

/-! ### Lines and columns -/

/-- A line and a column, both counted from 1. -/
structure LineColumn where
  line : Nat
  column : Nat
  deriving DecidableEq, Repr

/-- The place behind the character `c`. -/
def LineColumn.next (p : LineColumn) (c : Char) : LineColumn :=
  if c = '\n' then ⟨p.line + 1, 1⟩ else ⟨p.line, p.column + 1⟩

/-- The place reached from `p` by passing characters until `bytes` bytes are used up. -/
def LineColumn.walk (p : LineColumn) : List Char → Nat → LineColumn
  | [], _ => p
  | _ :: _, 0 => p
  | c :: rest, bytes + 1 => walk (p.next c) rest (bytes + 1 - c.utf8Size)

/-- The line and column of a byte offset in a text. -/
def lineColumn (text : String) (offset : Nat) : LineColumn :=
  LineColumn.walk ⟨1, 1⟩ text.toList offset

/-- The place of a span in a text. -/
structure Location where
  line : Nat
  column : Nat
  offset : Nat
  length : Nat
  deriving DecidableEq, Repr

namespace Location

/-- The place at which `span` starts in `text`. -/
def ofSpan (span : Span) (text : String) : Location :=
  let at_ := lineColumn text span.start
  { line := at_.line, column := at_.column, offset := span.start, length := span.length }

/-- The place as shown to the user. -/
def text (l : Location) : String := s!"line {l.line}, column {l.column}"

example : (ofSpan ⟨14, 17⟩ "select a\nfrom emp").text = "line 2, column 6" := by decide

end Location

end SqlTyping
