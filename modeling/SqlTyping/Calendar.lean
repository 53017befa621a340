import SqlTyping.Text.Padded

namespace SqlTyping

/-!
# Dates and times of day

* `Date` — a day of the calendar that counts years through zero, between the years -262143 and
  262142;
* `TimeOfDay` — a time with nanoseconds, which run on through a leap second; `TimeOfDay.of?` makes
  leap seconds at the end of a minute only;
* `Date.text`, `TimeOfDay.text` — the year with at least four digits and a sign when it is negative
  or above 9999, all else with two digits; fractions of a second are not shown.
-/

/-- Whether the year has a 29th of February. -/
def isLeapYear (year : Int) : Bool :=
  year % 4 == 0 && (year % 100 != 0 || year % 400 == 0)

/-- The number of days of a month. -/
def daysIn (year : Int) (month : Nat) : Nat :=
  match month with
  | 4 | 6 | 9 | 11 => 30
  | 2 => if isLeapYear year then 29 else 28
  | _ => 31

/-- No month has more than 31 days. -/
theorem daysIn_le (year : Int) (month : Nat) : daysIn year month ≤ 31 := by
  unfold daysIn
  split <;> (try split) <;> omega

/-- A day of the calendar. -/
structure Date where
  year : Int
  month : Nat
  day : Nat
  year_range : -262143 ≤ year ∧ year ≤ 262142 := by decide
  month_range : 1 ≤ month ∧ month ≤ 12 := by decide
  day_range : 1 ≤ day ∧ day ≤ daysIn year month := by decide
  deriving DecidableEq, Repr

/-- The day with the given parts, if there is one. -/
def Date.of? (year : Int) (month day : Nat) : Option Date :=
  if h : (-262143 ≤ year ∧ year ≤ 262142) ∧ (1 ≤ month ∧ month ≤ 12) ∧
      1 ≤ day ∧ day ≤ daysIn year month then
    some ⟨year, month, day, h.1, h.2.1, h.2.2⟩
  else none

/-- A time of day. Nanoseconds from 1000000000 on stand for a leap second behind the second. -/
structure TimeOfDay where
  hour : Nat
  minute : Nat
  second : Nat
  nanosecond : Nat
  hour_lt : hour < 24 := by decide
  minute_lt : minute < 60 := by decide
  second_lt : second < 60 := by decide
  nanosecond_lt : nanosecond < 2000000000 := by decide
  deriving DecidableEq, Repr

/-- The time with the given parts, if there is one. A leap second stands behind second 59. -/
def TimeOfDay.of? (hour minute second nanosecond : Nat) : Option TimeOfDay :=
  if h : hour < 24 ∧ minute < 60 ∧ second < 60 ∧
      (nanosecond < 1000000000 ∨ second = 59 ∧ nanosecond < 2000000000) then
    some ⟨hour, minute, second, nanosecond, h.1, h.2.1, h.2.2.1, by omega⟩
  else none

/-- The second of the minute, a leap second counting as the next one. -/
def TimeOfDay.shownSecond (t : TimeOfDay) : Nat := t.second + t.nanosecond / 1000000000

/-- The year with at least four digits, signed outside 0 to 9999. -/
def yearText (year : Int) : String :=
  if year < 0 then "-" ++ Text.padded 4 year.natAbs
  else if 9999 < year then "+" ++ Text.padded 4 year.natAbs
  else Text.padded 4 year.natAbs

/-- The day as year, month and day. -/
def Date.text (d : Date) : String :=
  yearText d.year ++ "-" ++ Text.padded 2 d.month ++ "-" ++ Text.padded 2 d.day

/-- The time as hour, minute and second. -/
def TimeOfDay.text (t : TimeOfDay) : String :=
  Text.padded 2 t.hour ++ ":" ++ Text.padded 2 t.minute ++ ":" ++ Text.padded 2 t.shownSecond

-- The year before the year zero.
example : (Date.mk (-1) 12 31).text = "-0001-12-31" := by decide

-- A leap second at the end of a day.
example : (TimeOfDay.mk 23 59 59 1000000000).text = "23:59:60" := by decide

end SqlTyping
