import SqlTyping.Diagnostic.Code
import SqlTyping.Source

namespace SqlTyping

/-!
# Diagnostics

* `Diagnostic` — a code and a message with an optional place and an optional hint;
* `HostError` — the error handed to the embedding program: about the statement, or internal;
* `HostError.diagnostic` — its diagnostic. The context of an error replaces the hint of its code.
-/

/-- A message for the user. -/
structure Diagnostic where
  code : ErrorCode
  message : String
  location : Option Location := none
  help : Option String := none
  deriving DecidableEq, Repr

namespace Diagnostic

/-- The diagnostic placed at a location. -/
def withLocation (d : Diagnostic) (l : Location) : Diagnostic := { d with location := some l }

/-- The diagnostic placed at a span of a text. -/
def withSpan (d : Diagnostic) (span : Span) (text : String) : Diagnostic :=
  d.withLocation (.ofSpan span text)

/-- The diagnostic with a hint. -/
def withHelp (d : Diagnostic) (help : String) : Diagnostic := { d with help := some help }

/-- The diagnostic in one line; the hint is not part of it. -/
def text (d : Diagnostic) : String :=
  let place := match d.location with
    | some l => " at " ++ l.text
    | none => ""
  s!"error: {d.code.text} - {d.message}" ++ place

end Diagnostic

/-- The error handed to the embedding program. -/
inductive HostError where
  /-- The statement is at fault. -/
  | semantic (code : ErrorCode) (message : String) (location : Option Location)
      (context : Option String)
  /-- An invariant of the validator does not hold. -/
  | internal (code : ErrorCode) (message : String)
  deriving DecidableEq, Repr

namespace HostError

/-- The code of the error. -/
def code : HostError → ErrorCode
  | semantic code _ _ _ => code
  | internal code _ => code

/-- The code and the message. -/
def text : HostError → String
  | semantic code message _ _ => s!"{code.text}: {message}"
  | internal code message => s!"{code.text}: {message}"

/-- Whether the error is internal. -/
def isInternal : HostError → Bool
  | semantic .. => false
  | internal .. => true

/-- The diagnostic of the error: its own context as the hint, else the hint of its code. An
    internal error has no hint. -/
def diagnostic : HostError → Diagnostic
  | semantic code message location context =>
    { code, message, location, help := context <|> code.help? }
  | internal code message => { code, message }

/-- The context of an error is its hint. -/
theorem help_diagnostic_of_context (code : ErrorCode) (message : String)
    (location : Option Location) (context : String) :
    (semantic code message location (some context)).diagnostic.help = some context := rfl

end HostError

end SqlTyping
