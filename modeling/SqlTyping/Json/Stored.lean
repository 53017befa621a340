import SqlTyping.Arity
import SqlTyping.Diagnostic
import SqlTyping.Json.Shape
import SqlTyping.Session

namespace SqlTyping

/-!
# Stored forms

How settings, types, spans and diagnostics are read from JSON and written to it. Fields are written
in the order of their declaration, absent values as null.
-/

namespace Json

/-- Reads a value from a text; every fault of the text or of the shape is the same refusal. -/
def readText? {α : Type} (read : Reader α) (text : String) : Option α :=
  (parse? text).bind (read maxNesting)

end Json

open Json

/-! ### Numbers and names -/

def NodeId.ofJson : Reader NodeId := fun depth value => (word32 depth value).map NodeId.mk

def NodeId.toJson (id : NodeId) : Json := .nat id.index

def ErrorCode.ofJson : Reader ErrorCode := fun depth value => (word16 depth value).map ErrorCode.mk

def ErrorCode.toJson (code : ErrorCode) : Json := .nat code.number

def TypeName.ofJson : Reader TypeName := alternative TypeName.ofLabel?

def TypeName.toJson (t : TypeName) : Json := .str t.label

def Family.ofJson : Reader Family := alternative Family.ofName?

def Family.toJson (f : Family) : Json := .str f.name

/-! ### Records without structure below them -/

def CastTarget.ofJson : Reader CastTarget
  | depth + 1, value => do
    match ← slots ["type_name", "precision", "scale"] false value with
    | [name, precision, scale] =>
      return {
        name := ← required TypeName.ofJson depth name
        precision := ← absentOr word32 depth precision
        scale := ← absentOr word32 depth scale }
    | _ => none
  | 0, _ => none

def CastTarget.toJson (c : CastTarget) : Json :=
  .fields [("type_name", c.name.toJson), ("precision", .orNull .nat c.precision),
    ("scale", .orNull .nat c.scale)]

def Arity.ofJson : Reader Arity
  | depth + 1, value => do
    match ← slots ["min", "max"] false value with
    | [least, most] =>
      return { least := ← required word64 depth least, most := ← absentOr word64 depth most }
    | _ => none
  | 0, _ => none

def Arity.toJson (a : Arity) : Json :=
  .fields [("min", .nat a.least), ("max", .orNull .nat a.most)]

def Span.ofJson : Reader Span
  | depth + 1, value => do
    match ← slots ["start", "end"] false value with
    | [start, stop] =>
      return { start := ← required word64 depth start, stop := ← required word64 depth stop }
    | _ => none
  | 0, _ => none

def Span.toJson (s : Span) : Json := .fields [("start", .nat s.start), ("end", .nat s.stop)]

def Location.ofJson : Reader Location
  | depth + 1, value => do
    match ← slots ["line", "column", "offset", "length"] false value with
    | [line, column, offset, length] =>
      return {
        line := ← required word64 depth line
        column := ← required word64 depth column
        offset := ← required word64 depth offset
        length := ← required word64 depth length }
    | _ => none
  | 0, _ => none

def Location.toJson (l : Location) : Json :=
  .fields [("line", .nat l.line), ("column", .nat l.column), ("offset", .nat l.offset),
    ("length", .nat l.length)]

def Diagnostic.ofJson : Reader Diagnostic
  | depth + 1, value => do
    match ← slots ["code", "message", "location", "help"] false value with
    | [code, message, location, help] =>
      return {
        code := ← required ErrorCode.ofJson depth code
        message := ← required textValue depth message
        location := ← absentOr Location.ofJson depth location
        help := ← absentOr textValue depth help }
    | _ => none
  | 0, _ => none

def Diagnostic.toJson (d : Diagnostic) : Json :=
  .fields [("code", d.code.toJson), ("message", .str d.message),
    ("location", .orNull Location.toJson d.location), ("help", .orNull .str d.help)]

/-- Settings; what is missing takes its default. -/
def Settings.ofJson : Reader Settings
  | depth + 1, value => do
    match ← slots ["type_coercion", "case_sensitive"] true value with
    | [coercion, caseSensitive] =>
      return {
        coercion := ← defaulted boolean ({} : Settings).coercion depth coercion
        caseSensitive := ← defaulted boolean ({} : Settings).caseSensitive depth caseSensitive }
    | _ => none
  | 0, _ => none

def Settings.toJson (s : Settings) : Json :=
  .fields [("type_coercion", .bool s.coercion), ("case_sensitive", .bool s.caseSensitive)]

/-! ### Data types -/

mutual

def DataType.ofJson : Reader DataType
  | 0, _ => none
  | depth + 1, value => do
    match ← slots ["type_name", "nullable", "precision", "scale", "fields", "component"] false value
      with
    | [name, nullable, precision, scale, fields, component] =>
      -- Written out so that the recursion is visible: a missing type reads like null.
      let component ← match component with
        | none | some .null => some none
        | some inner => (DataType.ofJson depth inner).map some
      return {
        name := ← required TypeName.ofJson depth name
        nullable := ← required boolean depth nullable
        precision := ← absentOr word32 depth precision
        scale := ← absentOr word32 depth scale
        fields := ← fields.bind (DataType.fieldsOfJson depth)
        component }
    | _ => none

/-- The columns of a row type. -/
def DataType.fieldsOfJson : Reader (List (Field DataType))
  | depth + 1, .array items => items.mapM (DataType.fieldOfJson depth)
  | _, _ => none

/-- A column of a row type. -/
def DataType.fieldOfJson : Reader (Field DataType)
  | 0, _ => none
  | depth + 1, value => do
    match ← slots ["name", "index", "field_type"] false value with
    | [name, index, type] =>
      return {
        name := ← required textValue depth name
        index := ← required word64 depth index
        type := ← type.bind (DataType.ofJson depth) }
    | _ => none

end

mutual

def DataType.toJson : DataType → Json
  | ⟨name, nullable, precision, scale, fields, component⟩ =>
    .fields [("type_name", name.toJson), ("nullable", .bool nullable),
      ("precision", .orNull .nat precision), ("scale", .orNull .nat scale),
      ("fields", .array (DataType.fieldsToJson fields)),
      ("component", DataType.componentToJson component)]

/-- The columns of a row type, one by one. -/
def DataType.fieldsToJson : List (Field DataType) → List Json
  | [] => []
  | ⟨name, index, type⟩ :: rest =>
    .fields [("name", .str name), ("index", .nat index), ("field_type", type.toJson)]
      :: DataType.fieldsToJson rest

/-- The element type of a collection. -/
def DataType.componentToJson : Option DataType → Json
  | none => .null
  | some type => type.toJson

end

end SqlTyping
