import SqlTyping.DataType.Equality

namespace SqlTyping

/-!
# Resolution paths

How a name was found: one step for each matched name, outermost first.

* `Path.Step` — the matched name, its place among its siblings, and the row type found there;
* `Path.plus` — the path with one more step at the end.
-/

/-- One matched name. -/
structure Path.Step where
  row : DataType
  ordinal : Nat
  name : String
  deriving DecidableEq

/-- The steps from a scope to what a name stands for. -/
structure Path where
  steps : List Path.Step := []
  deriving DecidableEq

namespace Path

/-- The path without steps. -/
def empty : Path := {}

/-- The path with one more step. -/
def plus (p : Path) (row : DataType) (ordinal : Nat) (name : String) : Path :=
  ⟨p.steps ++ [⟨row, ordinal, name⟩]⟩

/-- The number of steps. -/
def length (p : Path) : Nat := p.steps.length

/-- Whether there is no step. -/
def isEmpty (p : Path) : Bool := p.steps.isEmpty

/-- The innermost step. -/
def last? (p : Path) : Option Step := p.steps.getLast?

/-- The matched names, outermost first. -/
def names (p : Path) : List String := p.steps.map (·.name)

/-- The matched names joined by points. -/
def text (p : Path) : String := ".".intercalate p.names

@[simp] theorem length_plus (p : Path) (row : DataType) (ordinal : Nat) (name : String) :
    (p.plus row ordinal name).length = p.length + 1 := by
  simp [length, plus]

@[simp] theorem names_plus (p : Path) (row : DataType) (ordinal : Nat) (name : String) :
    (p.plus row ordinal name).names = p.names ++ [name] := by
  simp [names, plus]

end Path

end SqlTyping
