import SqlTyping.Operator
import SqlTyping.Signature.Standard

namespace SqlTyping

/-!
# The standard operators

`OperatorTable.standard` holds the functions for strings, numbers, dates and truth values, in this
order.
-/

namespace OperatorTable

/-- Functions on strings. -/
def stringFunctions : List Operator :=
  [⟨"UPPER", .character, .operand 0⟩,
    ⟨"LOWER", .character, .operand 0⟩,
    ⟨"LEFT", .stringInteger, .operand 0⟩,
    ⟨"RIGHT", .stringInteger, .operand 0⟩,
    ⟨"LPAD", .stringNumericOptionalString, .operand 0⟩,
    ⟨"RPAD", .stringNumericOptionalString, .operand 0⟩,
    ⟨"SUBSTR", .stringIntegerOptionalInteger, .operand 0⟩,
    ⟨"LTRIM", .stringOptionalString, .operand 0⟩,
    ⟨"RTRIM", .stringOptionalString, .operand 0⟩,
    ⟨"CHR", .integer, .fixedNullable { name := .char, precision := some 1 }⟩,
    ⟨"CONCAT", .stringString, .fixedNullable (.notNull .varchar)⟩]

/-- Functions on numbers. -/
def numericFunctions : List Operator :=
  [⟨"ABS", .numeric, .operand 0⟩,
    ⟨"MOD", .exactExact, .operand 1⟩]

/-- Functions on dates and timestamps. A time unit is a keyword and not looked at. -/
def datetimeFunctions : List Operator :=
  [⟨"DATEDIFF", .required [.ignore, .date, .date], .fixedNullable (.notNull .integer)⟩,
    ⟨"DATE_PART", .unitDateOrTimestamp, .fixedNullable (.notNull .bigInt)⟩,
    ⟨"TIMESTAMP_DIFF", .required [.timestamp, .timestamp, .ignore],
      .fixedNullable (.notNull .bigInt)⟩,
    ⟨"UNIX_DATE", .date, .fixedNullable (.notNull .integer)⟩,
    ⟨"DATE_FROM_UNIX_DATE", .integer, .fixedNullable (.notNull .date)⟩]

/-- Functions on truth values. -/
def logicalFunctions : List Operator :=
  [⟨"IF", .required [.boolean, .any, .any], .operand 1⟩,
    ⟨"BOOL_AND", .boolean, .nullable (.fixed (.notNull .boolean))⟩]

/-- The table of all standard functions. -/
def standard : OperatorTable :=
  empty.registerAll (stringFunctions ++ numericFunctions ++ datetimeFunctions ++ logicalFunctions)

example : standard.size = 20 := by decide

-- Names are found in any case, and the operator keeps its own spelling.
example : ((standard.lookup? "upper").map (·.name)) = some "UPPER" := by decide

end OperatorTable

end SqlTyping
