import SqlTyping.Signature

namespace SqlTyping

/-!
# Common signatures

The signatures that operators of the standard library share, named for what they accept.
-/

namespace Signature

/-- One operand of any type but CURSOR. -/
def anyOperand : Signature := required [.any]

def boolean : Signature := required [.boolean]

def numeric : Signature := required [.numeric]

def integer : Signature := required [.integer]

def numericNumeric : Signature := required [.numeric, .numeric]

def exactExact : Signature := required [.exactNumeric, .exactNumeric]

/-- One character or binary string. -/
def string : Signature := required [.string]

def character : Signature := required [.character]

def stringString : Signature := required [.string, .string]

def stringInteger : Signature := required [.string, .integer]

/-- A string, a number, and optionally a second string. -/
def stringNumericOptionalString : Signature := withOptional [.string, .numeric, .string] [2]

/-- A string, an integer, and optionally a second integer. -/
def stringIntegerOptionalInteger : Signature := withOptional [.string, .integer, .integer] [2]

def date : Signature := required [.date]

/-- One date, time or timestamp. -/
def datetime : Signature := required [.datetime]

def timestamp : Signature := required [.timestamp]

/-- One or two strings. -/
def stringOptionalString : Signature := oneOf [string, stringString]

/-- A time unit, which is a keyword, and a date or a timestamp. -/
def unitDateOrTimestamp : Signature :=
  oneOf [required [.ignore, .date], required [.ignore, .timestamp]]

/-- The common signatures by name. -/
def named : List (String × Signature) :=
  [("any", anyOperand), ("boolean", boolean), ("numeric", numeric), ("integer", integer),
    ("numeric_numeric", numericNumeric), ("exact_numeric_exact_numeric", exactExact),
    ("string", string), ("character", character), ("string_string", stringString),
    ("string_integer", stringInteger),
    ("string_numeric_optional_string", stringNumericOptionalString),
    ("string_integer_optional_integer", stringIntegerOptionalInteger), ("date", date),
    ("datetime", datetime), ("timestamp", timestamp),
    ("string_optional_string", stringOptionalString),
    ("unit_date_or_timestamp", unitDateOrTimestamp)]

/-- The common signature of the given name. -/
def named? (name : String) : Option Signature := named.lookup name

example : stringNumericOptionalString.arity = .between 2 3 := by decide

example : stringOptionalString.allowed "LTRIM" =
    "'LTRIM(<STRING>)'\n'LTRIM(<STRING>, <STRING>)'" := by decide

end Signature

end SqlTyping
