import SqlTyping.Arity
import SqlTyping.Family

namespace SqlTyping

/-!
# Operand signatures

What an operator accepts:

* `Signature` — a list of families with omittable positions, a choice of signatures, or an
  open-ended list of operands with a fixed answer;
* `Signature.arity` — the admitted numbers of operands: a family list may be cut only by a trailing
  run of omittable positions, a choice admits the least interval that covers its alternatives;
* `Signature.allowed` — the forms listed in messages;
* `Signature.mayOmit`, `Signature.familyAt?` — whether a position may be omitted, and the family all
  alternatives ask for there;
* `Signature.leaves` — the signatures of a choice with inner choices flattened.
-/

/-- What an operator accepts. These are all the forms there are, and a choice is made of them only: checks
    that a user of the library brings along are not modelled, but for those that give every call with enough
    operands the same answer. -/
inductive Signature where
  /-- One family for each position, and the positions that may be omitted. -/
  | families (positions : List Family) (omittable : Nat → Bool)
  /-- Any of the alternatives, tried in order. -/
  | oneOf (alternatives : List Signature)
  /-- At least `least` operands of any type, all checks giving the same answer. -/
  | openEnded (least : Nat) (answer : Bool)

instance : Inhabited Signature := ⟨.oneOf []⟩

/-- A call form over families, such as `LEFT(<STRING>, <INTEGER>)`. -/
def formText (operator : String) (positions : List Family) : String :=
  operator ++ "(" ++ ", ".intercalate (positions.map fun f => s!"<{f.name}>") ++ ")"

/-- A call form between quotes, as messages list it. -/
def quotedForm (operator : String) (positions : List Family) : String :=
  "'" ++ formText operator positions ++ "'"

/-- The length of a list of `count` positions without its trailing run of omittable ones. -/
def requiredCount (omittable : Nat → Bool) : Nat → Nat
  | 0 => 0
  | count + 1 => if omittable count then requiredCount omittable count else count + 1

/-- The required positions are the first ones. -/
theorem requiredCount_le (omittable : Nat → Bool) (count : Nat) :
    requiredCount omittable count ≤ count := by
  induction count with
  | zero => exact Nat.le_refl 0
  | succ n ih =>
    unfold requiredCount
    split
    · exact Nat.le_succ_of_le ih
    · exact Nat.le_refl _

/-- Every position from the required count on may be omitted. -/
theorem omittable_of_requiredCount_le {omittable : Nat → Bool} {count index : Nat}
    (h : requiredCount omittable count ≤ index) (hi : index < count) : omittable index = true := by
  induction count with
  | zero => omega
  | succ n ih =>
    unfold requiredCount at h
    split at h
    -- The last position is omittable: it is `index`, or `index` lies before it.
    · rename_i ho
      by_cases hn : index = n
      · exact hn ▸ ho
      · exact ih h (by omega)
    · omega

namespace Signature

/-- The signature with every position required. -/
def required (positions : List Family) : Signature := families positions fun _ => false

/-- The signature in which the listed positions may be omitted. -/
def withOptional (positions : List Family) (optional : List Nat) : Signature :=
  families positions optional.contains

mutual

/-- The admitted numbers of operands. -/
def arity : Signature → Arity
  | families positions omittable =>
    .between (requiredCount omittable positions.length) positions.length
  | oneOf alternatives =>
    match arities alternatives with
    -- No alternative accepts anything; the interval only has to exist.
    | [] => .exactly 0
    | a :: rest => rest.foldl Arity.union a
  | openEnded least _ => .atLeast least

/-- The admitted numbers of operands of each alternative. -/
def arities : List Signature → List Arity
  | [] => []
  | s :: rest => s.arity :: arities rest

end

mutual

/-- The allowed forms, one a line. -/
def allowed (operator : String) : Signature → String
  | families positions _ => quotedForm operator positions
  | oneOf alternatives => "\n".intercalate (allowedForms operator alternatives)
  | openEnded _ _ => s!"'{operator}(...)'"

/-- The allowed forms of each alternative. -/
def allowedForms (operator : String) : List Signature → List String
  | [] => []
  | s :: rest => s.allowed operator :: allowedForms operator rest

end

mutual

/-- Whether the operand at a position may be omitted; in a choice one alternative suffices. -/
def mayOmit (index : Nat) : Signature → Bool
  | families _ omittable => omittable index
  | oneOf alternatives => anyMayOmit index alternatives
  | openEnded _ _ => false

/-- Whether some alternative lets the operand be omitted. -/
def anyMayOmit (index : Nat) : List Signature → Bool
  | [] => false
  | s :: rest => s.mayOmit index || anyMayOmit index rest

end

/-- Whether the signature has the position: it does unless its arity ends before it. -/
def hasPosition (index : Nat) (s : Signature) : Bool :=
  match s.arity.most with
  | some most => index < most
  | none => true

/-- The family on which all entries agree, if there is an entry and none is absent. -/
def common? : List (Option Family) → Option Family
  | some f :: rest => if rest.all (· == some f) then some f else none
  | _ => none

mutual

/-- The family asked for at a position: in a choice, the one all alternatives with that position
    agree on. -/
def familyAt? (index : Nat) : Signature → Option Family
  | families positions _ => positions[index]?
  | oneOf alternatives => common? (familiesAt index alternatives)
  | openEnded _ _ => none

/-- The family each alternative with the position asks for there. -/
def familiesAt (index : Nat) : List Signature → List (Option Family)
  | [] => []
  | s :: rest =>
    if s.hasPosition index then s.familyAt? index :: familiesAt index rest
    else familiesAt index rest

end

/-- Whether a position holds a keyword that is not looked at. -/
def isKeyword (s : Signature) (index : Nat) : Bool := s.familyAt? index == some .ignore

/-- The number of operands a call shows to the signature when `count` are written: missing ones are
    added up to the largest admitted number when every missing position may be omitted. -/
def shownCount (s : Signature) (count : Nat) : Nat :=
  let most := s.arity.most.getD count
  -- The range is empty when enough operands are written.
  if (List.range' count (most - count)).all fun index => s.mayOmit index then max count most
  else count

mutual

/-- The signatures that are no choice, left to right. -/
def leaves : Signature → List Signature
  | oneOf alternatives => leavesOf alternatives
  | s => [s]

/-- The leaves of each alternative, left to right. -/
def leavesOf : List Signature → List Signature
  | [] => []
  | s :: rest => s.leaves ++ leavesOf rest

end

example : (withOptional [.string, .integer, .integer] [2]).arity = .between 2 3 := by decide

-- An omittable position in front of a required one cannot be cut off.
example : (withOptional [.string, .integer] [0]).arity = .exactly 2 := by decide

end Signature

end SqlTyping
