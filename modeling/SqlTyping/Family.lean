import SqlTyping.TypeName

namespace SqlTyping

/-!
# Type families

A family is a set of type names that are interchangeable where an operand is expected:

* `Family.members` — the accepted set of a family, `Family.accepts` its membership test;
* `Family.of?` — the one family in which a type name counts when it is converted; a type name is
  always a member of it (`accepts_of_of?`);
* `Family.target?` — the type an implicit conversion into the family produces, itself a member
  (`accepts_of_target?`).
-/

/-- What a signature asks of one operand position. -/
inductive Family where
  | character
  | binary
  | numeric
  | exactNumeric
  | approximateNumeric
  | integer
  | decimal
  | date
  | time
  | timestamp
  | datetime
  | boolean
  | intervalYearMonth
  | intervalDayTime
  | datetimeInterval
  /-- Character and binary strings. -/
  | string
  | array
  | map
  | multiset
  | null
  | cursor
  | columnList
  /-- Every type but CURSOR. -/
  | any
  /-- The position is not checked by the signature. -/
  | ignore
  deriving DecidableEq, Repr, Inhabited

namespace Family

/-- Every family, in declaration order. -/
def all : List Family :=
  [character, binary, numeric, exactNumeric, approximateNumeric, integer, decimal, date, time,
    timestamp, datetime, boolean, intervalYearMonth, intervalDayTime, datetimeInterval, string,
    array, map, multiset, null, cursor, columnList, any, ignore]

/-- The list `all` misses no family. -/
theorem mem_all (f : Family) : f ∈ all := by cases f <;> decide

/-- The name of the family in signatures and in stored data. -/
def name : Family → String
  | character => "CHARACTER"
  | binary => "BINARY"
  | numeric => "NUMERIC"
  | exactNumeric => "EXACT_NUMERIC"
  | approximateNumeric => "APPROXIMATE_NUMERIC"
  | integer => "INTEGER"
  | decimal => "DECIMAL"
  | date => "DATE"
  | time => "TIME"
  | timestamp => "TIMESTAMP"
  | datetime => "DATETIME"
  | boolean => "BOOLEAN"
  | intervalYearMonth => "INTERVAL_YEAR_MONTH"
  | intervalDayTime => "INTERVAL_DAY_TIME"
  | datetimeInterval => "DATETIME_INTERVAL"
  | string => "STRING"
  | array => "ARRAY"
  | map => "MAP"
  | multiset => "MULTISET"
  | null => "NULL"
  | cursor => "CURSOR"
  | columnList => "COLUMN_LIST"
  | any => "ANY"
  | ignore => "IGNORE"

/-- The family named `s`, if there is one. -/
def ofName? (s : String) : Option Family :=
  all.find? (·.name == s)

/-- Reading a name gives back the family it was written from. -/
theorem ofName?_name (f : Family) : ofName? f.name = some f := by
  cases f <;> decide

/-- The type names the family accepts. ANY lists every type name; that it refuses CURSOR is decided
    where an operand is checked. -/
def members : Family → List TypeName
  | character => [.char, .varchar]
  | binary => [.binary, .varbinary]
  | numeric => [.tinyInt, .smallInt, .integer, .bigInt, .decimal, .real, .float, .double]
  | exactNumeric => [.tinyInt, .smallInt, .integer, .bigInt, .decimal]
  | approximateNumeric => [.real, .float, .double]
  | integer => [.tinyInt, .smallInt, .integer, .bigInt]
  | decimal => [.decimal]
  | date => [.date]
  | time => [.time]
  | timestamp => [.timestamp]
  | datetime => [.date, .time, .timestamp]
  | boolean => [.boolean]
  | intervalYearMonth => [.intervalYear, .intervalYearMonth, .intervalMonth]
  | intervalDayTime =>
    [.intervalDay, .intervalDayHour, .intervalDayMinute, .intervalDaySecond, .intervalHour,
      .intervalMinute, .intervalSecond]
  | datetimeInterval =>
    [.intervalYear, .intervalYearMonth, .intervalMonth, .intervalDay, .intervalDayHour,
      .intervalDayMinute, .intervalDaySecond, .intervalHour, .intervalMinute, .intervalSecond]
  | string => [.char, .varchar, .binary, .varbinary]
  | array => [.array]
  | map => [.map]
  | multiset => [.multiset]
  | null => [.null]
  | cursor => [.cursor]
  | columnList => [.columnList]
  | any => TypeName.all
  | ignore => []

/-- Whether the family accepts the type name. -/
def accepts (f : Family) (t : TypeName) : Bool :=
  f.members.contains t

/-- The membership test decides membership in the accepted set. -/
theorem accepts_iff {f : Family} {t : TypeName} : f.accepts t = true ↔ t ∈ f.members := by
  simp [accepts]

/-- The family a type name counts in; SYMBOL and ROW count in none. -/
def of? : TypeName → Option Family
  | .boolean => some boolean
  | .tinyInt | .smallInt | .integer | .bigInt | .decimal | .real | .float
  | .double => some numeric
  | .char | .varchar => some character
  | .binary | .varbinary => some binary
  | .date => some date
  | .time => some time
  | .timestamp => some timestamp
  | .intervalYear | .intervalYearMonth | .intervalMonth => some intervalYearMonth
  | .intervalDay | .intervalDayHour | .intervalDayMinute | .intervalDaySecond | .intervalHour
  | .intervalMinute | .intervalSecond => some intervalDayTime
  | .null => some null
  | .any => some any
  | .array => some array
  | .map => some map
  | .multiset => some multiset
  | .cursor => some cursor
  | .columnList => some columnList
  | .symbol | .row => none

/-- The type of unknown values is the only one of its family. -/
theorem of?_eq_any_iff {t : TypeName} : of? t = some any ↔ t = .any := by
  cases t <;> simp [of?]

/-- A type name is accepted by the family it counts in. -/
theorem accepts_of_of? {t : TypeName} {f : Family} (h : of? t = some f) : f.accepts t = true := by
  cases t <;> simp only [of?, Option.some.injEq, reduceCtorEq] at h <;> subst h <;> decide

/-- The type an implicit conversion into the family produces, if there is any such conversion. -/
def target? : Family → Option TypeName
  | character | string => some .varchar
  | binary => some .varbinary
  | numeric | exactNumeric | decimal => some .decimal
  | approximateNumeric => some .double
  | integer => some .bigInt
  | date => some .date
  | time => some .time
  | timestamp | datetime => some .timestamp
  | boolean => some .boolean
  | intervalYearMonth | datetimeInterval => some .intervalYearMonth
  | intervalDayTime => some .intervalDaySecond
  | array | map | multiset | null | cursor | columnList | any | ignore => none

/-- A conversion into a family produces a type the family accepts. -/
theorem accepts_of_target? {f : Family} {t : TypeName} (h : f.target? = some t) :
    f.accepts t = true := by
  cases f <;> simp only [target?, Option.some.injEq, reduceCtorEq] at h <;> subst h <;> decide

end Family

end SqlTyping
