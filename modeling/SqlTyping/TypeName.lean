namespace SqlTyping

/-!
# SQL type names

The names of the concrete SQL types, with their two spellings and the arguments they take:

* `TypeName` — one constructor per concrete type, `TypeName.all` lists them in declaration order;
* `TypeName.sqlName` — the spelling in SQL text (`INTERVAL DAY TO SECOND`);
* `TypeName.label` / `TypeName.ofLabel?` — the one-word spelling in stored data
  (`INTERVAL_DAY_SECOND`) and its reader, inverse to each other (`ofLabel?_label`).
-/

/-- A concrete SQL type, without nullability, precision or structure. -/
inductive TypeName where
  | boolean
  | tinyInt
  | smallInt
  | integer
  | bigInt
  | decimal
  | real
  | float
  | double
  | char
  | varchar
  | binary
  | varbinary
  | date
  | time
  | timestamp
  | intervalYear
  | intervalYearMonth
  | intervalMonth
  | intervalDay
  | intervalDayHour
  | intervalDayMinute
  | intervalDaySecond
  | intervalHour
  | intervalMinute
  | intervalSecond
  /-- The type of the untyped NULL literal. -/
  | null
  /-- The dynamically typed value. -/
  | any
  /-- A keyword operand such as a time unit. -/
  | symbol
  | array
  | map
  | multiset
  /-- The record type of a table, subquery or WITH item. -/
  | row
  /-- A query handed over as an operand. -/
  | cursor
  | columnList
  deriving DecidableEq, Repr, Inhabited

namespace TypeName

/-- Every type name, in declaration order. -/
def all : List TypeName :=
  [boolean, tinyInt, smallInt, integer, bigInt, decimal, real, float, double, char, varchar,
    binary, varbinary, date, time, timestamp, intervalYear, intervalYearMonth, intervalMonth,
    intervalDay, intervalDayHour, intervalDayMinute, intervalDaySecond, intervalHour,
    intervalMinute, intervalSecond, null, any, symbol, array, map, multiset, row, cursor,
    columnList]

/-- The list `all` misses no type name. -/
theorem mem_all (t : TypeName) : t ∈ all := by cases t <;> decide

/-- The spelling of the type in SQL text. -/
def sqlName : TypeName → String
  | boolean => "BOOLEAN"
  | tinyInt => "TINYINT"
  | smallInt => "SMALLINT"
  | integer => "INTEGER"
  | bigInt => "BIGINT"
  | decimal => "DECIMAL"
  | real => "REAL"
  | float => "FLOAT"
  | double => "DOUBLE"
  | char => "CHAR"
  | varchar => "VARCHAR"
  | binary => "BINARY"
  | varbinary => "VARBINARY"
  | date => "DATE"
  | time => "TIME"
  | timestamp => "TIMESTAMP"
  | intervalYear => "INTERVAL YEAR"
  | intervalYearMonth => "INTERVAL YEAR TO MONTH"
  | intervalMonth => "INTERVAL MONTH"
  | intervalDay => "INTERVAL DAY"
  | intervalDayHour => "INTERVAL DAY TO HOUR"
  | intervalDayMinute => "INTERVAL DAY TO MINUTE"
  | intervalDaySecond => "INTERVAL DAY TO SECOND"
  | intervalHour => "INTERVAL HOUR"
  | intervalMinute => "INTERVAL MINUTE"
  | intervalSecond => "INTERVAL SECOND"
  | null => "NULL"
  | any => "ANY"
  | symbol => "SYMBOL"
  | array => "ARRAY"
  | map => "MAP"
  | multiset => "MULTISET"
  | row => "ROW"
  | cursor => "CURSOR"
  | columnList => "COLUMN_LIST"

/-- The spelling of the type in stored data: one word, parts separated by underscores. -/
def label : TypeName → String
  | tinyInt => "TINY_INT"
  | smallInt => "SMALL_INT"
  | bigInt => "BIG_INT"
  | intervalYear => "INTERVAL_YEAR"
  | intervalYearMonth => "INTERVAL_YEAR_MONTH"
  | intervalMonth => "INTERVAL_MONTH"
  | intervalDay => "INTERVAL_DAY"
  | intervalDayHour => "INTERVAL_DAY_HOUR"
  | intervalDayMinute => "INTERVAL_DAY_MINUTE"
  | intervalDaySecond => "INTERVAL_DAY_SECOND"
  | intervalHour => "INTERVAL_HOUR"
  | intervalMinute => "INTERVAL_MINUTE"
  | intervalSecond => "INTERVAL_SECOND"
  | t => t.sqlName

/-- The type name stored as `s`, if there is one. -/
def ofLabel? (s : String) : Option TypeName :=
  all.find? (·.label == s)

/-- Reading a label gives back the type name it was written from. -/
theorem ofLabel?_label (t : TypeName) : ofLabel? t.label = some t := by
  cases t <;> decide

/-- Whether the type is one of the interval types. -/
def isInterval : TypeName → Bool
  | intervalYear | intervalYearMonth | intervalMonth | intervalDay | intervalDayHour
  | intervalDayMinute | intervalDaySecond | intervalHour | intervalMinute
  | intervalSecond => true
  | _ => false

/-- Whether the type takes a precision, as in `VARCHAR(20)`. -/
def allowsPrecision : TypeName → Bool
  | char | varchar | binary | varbinary | decimal | time | timestamp => true
  | _ => false

/-- Whether the type takes a scale, as in `DECIMAL(10, 2)`. -/
def allowsScale : TypeName → Bool
  | decimal => true
  | _ => false

/-- A type that takes a scale takes a precision too. -/
theorem allowsPrecision_of_allowsScale {t : TypeName} (h : t.allowsScale = true) :
    t.allowsPrecision = true := by
  cases t <;> simp_all [allowsScale, allowsPrecision]

end TypeName

end SqlTyping
