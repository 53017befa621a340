import Mathlib.Data.Set.Function
import SqlTyping.Literal

namespace SqlTyping

/-!
# What the texts of dates and times tell

The text of a day tells the day, whatever its year. The text of a time stops at the second, so it tells
the time up to the fraction:

* `yearText_injective`, `Date.text_injective` — signs and padding keep years apart;
* `TimeOfDay.SameSecond` — two times that read the same on a clock with seconds; these are the times
  with one text (`TimeOfDay.text_eq_iff`);
* `Literal.temporal_text_eq_iff` — when the texts of DATE, TIME and TIMESTAMP literals are the same.
-/

/-- Of two texts with tails of one length, heads and tails agree. -/
theorem Text.append_inj_of_length {head head' tail tail' : String}
    (hlength : tail.length = tail'.length) (h : head ++ tail = head' ++ tail') :
    head = head' ∧ tail = tail' := by
  have hlists := congrArg String.toList h
  rw [String.toList_append, String.toList_append] at hlists
  obtain ⟨hhead, htail⟩ := List.append_inj' hlists (by simp only [String.length_toList, hlength])
  exact ⟨String.toList_inj.mp hhead, String.toList_inj.mp htail⟩

/-! ### Days -/

/-- A sign is no digit. -/
theorem Text.not_mem_padded {width n : Nat} {sign : Char} (h : sign.isDigit = false) :
    sign ∉ (padded width n).toList := fun hmem => by
  rw [isDigit_of_mem_padded hmem] at h
  cases h

/-- The minus sign stands before negative years only. -/
theorem minus_mem_yearText (year : Int) : '-' ∈ (yearText year).toList ↔ year < 0 := by
  have hdigits : '-' ∉ (Text.padded 4 year.natAbs).toList := Text.not_mem_padded (by decide)
  unfold yearText
  split
  case isTrue hneg => simp [hneg]
  case isFalse hneg => split <;> simp [hneg, hdigits]

/-- The plus sign stands before years above 9999 only. -/
theorem plus_mem_yearText (year : Int) : '+' ∈ (yearText year).toList ↔ 9999 < year := by
  have hdigits : '+' ∉ (Text.padded 4 year.natAbs).toList := Text.not_mem_padded (by decide)
  unfold yearText
  split
  case isTrue hneg =>
    have hshort : ¬ 9999 < year := by omega
    simp [hshort, hdigits]
  case isFalse => split <;> simp [*]

theorem yearText_injective : Function.Injective yearText := by
  intro year year' h
  have hnegative : year < 0 ↔ year' < 0 := by
    rw [← minus_mem_yearText, h, minus_mem_yearText]
  have hlong : 9999 < year ↔ 9999 < year' := by
    rw [← plus_mem_yearText, h, plus_mem_yearText]
  have hdigits : Text.padded 4 year.natAbs = Text.padded 4 year'.natAbs := by
    unfold yearText at h
    by_cases hneg : year < 0
    · rwa [if_pos hneg, if_pos (hnegative.mp hneg), String.append_right_inj] at h
    · rw [if_neg hneg, if_neg (mt hnegative.mpr hneg)] at h
      by_cases hpos : 9999 < year
      · rwa [if_pos hpos, if_pos (hlong.mp hpos), String.append_right_inj] at h
      · rwa [if_neg hpos, if_neg (mt hlong.mpr hpos)] at h
  have habs : year.natAbs = year'.natAbs := Text.padded_injective 4 hdigits
  omega

/-- Months and days are shown with two digits. -/
theorem Text.length_padded_two {n : Nat} (h : n < 100) : (padded 2 n).length = 2 :=
  length_padded (by decide) h

theorem Date.month_lt (d : Date) : d.month < 100 := by
  have h := d.month_range
  omega

theorem Date.day_lt (d : Date) : d.day < 100 := by
  have h := d.day_range
  have hle := daysIn_le d.year d.month
  omega

/-- The text of a day tells the day. -/
theorem Date.text_injective : Function.Injective Date.text := by
  intro d d' h
  unfold Date.text at h
  -- Cut off from the right, where the widths are fixed; what is left is the year, of any width.
  obtain ⟨h, hday⟩ := Text.append_inj_of_length
    (by rw [Text.length_padded_two d.day_lt, Text.length_padded_two d'.day_lt]) h
  rw [String.append_left_inj] at h
  obtain ⟨h, hmonth⟩ := Text.append_inj_of_length
    (by rw [Text.length_padded_two d.month_lt, Text.length_padded_two d'.month_lt]) h
  rw [String.append_left_inj] at h
  cases d
  cases d'
  obtain rfl := yearText_injective h
  obtain rfl := Text.padded_injective 2 hmonth
  obtain rfl := Text.padded_injective 2 hday
  rfl

/-! ### Times of day -/

namespace TimeOfDay

/-- The two times read the same on a clock with seconds. -/
structure SameSecond (t t' : TimeOfDay) : Prop where
  hour : t.hour = t'.hour
  minute : t.minute = t'.minute
  shownSecond : t.shownSecond = t'.shownSecond

/-- A leap second adds one to the second. -/
theorem shownSecond_lt (t : TimeOfDay) : t.shownSecond < 100 := by
  have hsecond := t.second_lt
  have hnanosecond := t.nanosecond_lt
  unfold shownSecond
  omega

theorem text_eq_iff {t t' : TimeOfDay} : t.text = t'.text ↔ t.SameSecond t' := by
  constructor
  · intro h
    unfold text at h
    obtain ⟨h, hsecond⟩ := Text.append_inj_of_length
      (by rw [Text.length_padded_two t.shownSecond_lt, Text.length_padded_two t'.shownSecond_lt]) h
    rw [String.append_left_inj] at h
    have hlt : t.minute < 100 := t.minute_lt.trans (by decide)
    have hlt' : t'.minute < 100 := t'.minute_lt.trans (by decide)
    obtain ⟨h, hminute⟩ := Text.append_inj_of_length
      (by rw [Text.length_padded_two hlt, Text.length_padded_two hlt']) h
    rw [String.append_left_inj] at h
    exact ⟨Text.padded_injective 2 h, Text.padded_injective 2 hminute,
      Text.padded_injective 2 hsecond⟩
  · rintro ⟨hhour, hminute, hsecond⟩
    rw [text, text, hhour, hminute, hsecond]

/-- Every time is shown with eight characters. -/
theorem length_text (t : TimeOfDay) : t.text.length = 8 := by
  have hhour : t.hour < 100 := t.hour_lt.trans (by decide)
  have hminute : t.minute < 100 := t.minute_lt.trans (by decide)
  simp only [text, String.length_append, Text.length_padded_two hhour, Text.length_padded_two hminute,
    Text.length_padded_two t.shownSecond_lt]
  rfl

/-- The time is the start of a second, of a leap second only at the end of a minute. -/
def IsWhole (t : TimeOfDay) : Prop :=
  t.nanosecond = 0 ∨ t.second = 59 ∧ t.nanosecond = 1000000000

/-- Whole seconds that read the same are the same. -/
theorem SameSecond.eq {t t' : TimeOfDay} (h : t.SameSecond t') (ht : t.IsWhole)
    (ht' : t'.IsWhole) : t = t' := by
  obtain ⟨hhour, hminute, hshown⟩ := h
  have hlt := t.second_lt
  have hlt' := t'.second_lt
  unfold TimeOfDay.shownSecond at hshown
  unfold IsWhole at ht ht'
  have hsecond : t.second = t'.second := by omega
  have hnanosecond : t.nanosecond = t'.nanosecond := by omega
  cases t
  cases t'
  cases hhour
  cases hminute
  cases hsecond
  cases hnanosecond
  rfl

end TimeOfDay

/-! ### Literals -/

namespace Literal

/-- The days and times among the literals that have no fraction of a second. -/
inductive IsWholeSecond : Literal → Prop
  | date (d : Date) : IsWholeSecond (.date d)
  | time {t : TimeOfDay} (h : t.IsWhole) : IsWholeSecond (.time t)
  | timestamp (d : Date) {t : TimeOfDay} (h : t.IsWhole) : IsWholeSecond (.timestamp d t)

theorem text_date_eq_iff {d d' : Date} : (date d).text = (date d').text ↔ d = d' := by
  simp only [text, String.append_left_inj, String.append_right_inj, Date.text_injective.eq_iff]

theorem text_time_eq_iff {t t' : TimeOfDay} :
    (time t).text = (time t').text ↔ t.SameSecond t' := by
  simp only [text, String.append_left_inj, String.append_right_inj, TimeOfDay.text_eq_iff]

theorem text_timestamp_eq_iff {d d' : Date} {t t' : TimeOfDay} :
    (timestamp d t).text = (timestamp d' t').text ↔ d = d' ∧ t.SameSecond t' := by
  rw [← Date.text_injective.eq_iff, ← TimeOfDay.text_eq_iff]
  simp only [text, String.append_left_inj]
  constructor
  · intro h
    obtain ⟨h, htime⟩ := Text.append_inj_of_length (by rw [t.length_text, t'.length_text]) h
    rw [String.append_left_inj, String.append_right_inj] at h
    exact ⟨h, htime⟩
  · rintro ⟨hdate, htime⟩
    rw [hdate, htime]

/-- The keywords in front tell the kinds apart. -/
theorem text_ne_of_kinds :
    (∀ d t, (date d).text ≠ (time t).text) ∧ (∀ d d' t, (date d).text ≠ (timestamp d' t).text) ∧
      ∀ t d t', (time t).text ≠ (timestamp d t').text := by
  refine ⟨fun d t h => ?_, fun d d' t h => ?_, fun t d t' h => ?_⟩
  all_goals
    have hlists := congrArg String.toList h
    simp [text, String.toList_append] at hlists

/-- Literals of whole seconds are told by their texts. -/
theorem injOn_text_wholeSecond : Set.InjOn text {l | l.IsWholeSecond} := by
  obtain ⟨hdateTime, hdateTimestamp, htimeTimestamp⟩ := text_ne_of_kinds
  rintro _ (d | ht | ⟨d, ht⟩) _ (d' | ht' | ⟨d', ht'⟩) h
  · rw [text_date_eq_iff.mp h]
  · exact absurd h (hdateTime _ _)
  · exact absurd h (hdateTimestamp _ _ _)
  · exact absurd h.symm (hdateTime _ _)
  · rw [(text_time_eq_iff.mp h).eq ht ht']
  · exact absurd h (htimeTimestamp _ _ _)
  · exact absurd h.symm (hdateTimestamp _ _ _)
  · exact absurd h.symm (htimeTimestamp _ _ _)
  · obtain ⟨rfl, hsame⟩ := text_timestamp_eq_iff.mp h
    rw [hsame.eq ht ht']

/-- The text of a day tells the day, and that of a time tells the hour, the minute and the second, but
    nothing about the fraction of the second. So literals of whole seconds are told by their texts. -/
theorem temporal_text_eq_iff (d d' : Date) (t t' : TimeOfDay) :
    ((date d).text = (date d').text ↔ d = d') ∧
    ((time t).text = (time t').text ↔ t.SameSecond t') ∧
    ((timestamp d t).text = (timestamp d' t').text ↔ d = d' ∧ t.SameSecond t') ∧
    Set.InjOn text {l | l.IsWholeSecond} :=
  ⟨text_date_eq_iff, text_time_eq_iff, text_timestamp_eq_iff, injOn_text_wholeSecond⟩

/-- Half a second later the texts of a time and a timestamp are still the same. -/
theorem fraction_not_shown :
    let half := TimeOfDay.mk 12 30 0 500000000
    let start := TimeOfDay.mk 12 30 0 0
    let day := Date.mk 2024 1 31
    (time start ≠ time half ∧ (time start).text = (time half).text) ∧
      timestamp day start ≠ timestamp day half ∧
        (timestamp day start).text = (timestamp day half).text := by
  decide

end Literal

end SqlTyping
