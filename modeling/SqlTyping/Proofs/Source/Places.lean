import Mathlib.Data.List.DropRight
import Mathlib.Data.Prod.Lex
import Mathlib.Order.Monotone.Basic
import SqlTyping.Source

namespace SqlTyping

/-!
# Places of byte offsets

The line and column of an offset, read off the text that stands before it:

* `LineColumn.behind` — the place behind a text, by its newlines and the characters of its last line;
* `LineColumn.key` — the lexicographic order of places;
* `LineColumn.walk_append` — the walk over a text, once the offset lies behind some part of it;
* `lineColumn_exact` — offsets on a boundary, inside a character and past the end. Places keep the
  order of offsets, and tell boundaries apart.
-/

namespace LineColumn

/-- The place behind a text: a line for every newline and the first one, a column for every character
    behind the last newline and one more. -/
def behind (before : String) : LineColumn :=
  ⟨1 + before.toList.count '\n', 1 + (before.toList.rtakeWhile (· ≠ '\n')).length⟩

/-- The line and then the column, in lexicographic order. -/
def key (p : LineColumn) : ℕ ×ₗ ℕ := toLex (p.line, p.column)

variable {p : LineColumn} {passed rest : List Char} {bytes : Nat}

/-! ### The walk -/

theorem walk_zero (p : LineColumn) (rest : List Char) : p.walk rest 0 = p := by
  cases rest <;> rfl

/-- Some bytes of a character are used up with all of them. -/
theorem walk_cons (p : LineColumn) (c : Char) (rest : List Char) (h : 0 < bytes) :
    p.walk (c :: rest) bytes = (p.next c).walk rest (bytes - c.utf8Size) := by
  obtain ⟨n, rfl⟩ := Nat.exists_eq_succ_of_ne_zero h.ne'
  rfl

/-- The walk first passes the characters that end before the offset. -/
theorem walk_append (p : LineColumn) (passed rest : List Char) (bytes : Nat) :
    p.walk (passed ++ rest) ((String.ofList passed).utf8ByteSize + bytes) =
      (passed.foldl next p).walk rest bytes := by
  induction passed generalizing p with
  | nil => simp
  | cons c passed ih =>
    have hpos := c.utf8Size_pos
    have hsize : (String.ofList (c :: passed)).utf8ByteSize =
        c.utf8Size + (String.ofList passed).utf8ByteSize := by simp [String.ofList_cons]
    rw [List.cons_append, hsize, walk_cons p c _ (by omega), List.foldl_cons, ← ih (p.next c)]
    congr 1
    omega

/-- Passing a text from its start, one gets to the place behind it. -/
theorem foldl_next (before : String) : before.toList.foldl next ⟨1, 1⟩ = behind before := by
  unfold behind
  generalize before.toList = passed
  induction passed using List.reverseRecOn with
  | nil => rfl
  | append_singleton passed c ih =>
    rw [List.foldl_append, ih, List.foldl_cons, List.foldl_nil, List.count_append,
      List.rtakeWhile_concat]
    by_cases hc : c = '\n'
    · subst hc
      simp [next, Nat.add_assoc]
    · simp [next, hc, Nat.add_comm]

/-! ### The order of places -/

/-- Every character leads to a later place: on the same line, or on the next one. -/
theorem key_lt_next (p : LineColumn) (c : Char) : p.key < (p.next c).key := by
  unfold key next
  split <;> simp [Prod.Lex.toLex_lt_toLex]

theorem key_le_walk (p : LineColumn) (rest : List Char) (bytes : Nat) :
    p.key ≤ (p.walk rest bytes).key := by
  induction rest generalizing p bytes with
  | nil => exact le_rfl
  | cons c rest ih =>
    rcases Nat.eq_zero_or_pos bytes with rfl | h
    · rw [walk_zero]
    · rw [walk_cons p c rest h]
      exact (key_lt_next p c).le.trans (ih (p.next c) _)

/-- More bytes lead to no earlier place. -/
theorem key_walk_mono (p : LineColumn) (rest : List Char) :
    Monotone fun bytes => (p.walk rest bytes).key := by
  intro bytes bytes' hle
  induction rest generalizing p bytes bytes' with
  | nil => exact le_rfl
  | cons c rest ih =>
    rcases Nat.eq_zero_or_pos bytes with rfl | h
    · simpa only [walk_zero] using key_le_walk p (c :: rest) bytes'
    · simp only [walk_cons p c rest h, walk_cons p c rest (h.trans_le hle)]
      exact ih (p.next c) (Nat.sub_le_sub_right hle _)

/-- A text that is longer by some characters ends at a later place. -/
theorem key_lt_foldl (p : LineColumn) (h : passed ≠ []) : p.key < (passed.foldl next p).key := by
  induction passed generalizing p with
  | nil => exact absurd rfl h
  | cons c passed ih =>
    by_cases hnil : passed = []
    · subst hnil
      exact key_lt_next p c
    · exact (key_lt_next p c).trans (ih (p.next c) hnil)

end LineColumn

open LineColumn

variable {text before after : String}

/-- A boundary of characters has the place behind the text before it. -/
theorem lineColumn_boundary (before after : String) :
    lineColumn (before ++ after) before.utf8ByteSize = .behind before := by
  have h := walk_append ⟨1, 1⟩ before.toList after.toList 0
  rw [walk_zero, foldl_next, String.ofList_toList, Nat.add_zero] at h
  rwa [lineColumn, String.toList_append]

/-- An offset inside a character has the place behind that character. -/
theorem lineColumn_inside (before after : String) (c : Char) {offset : Nat}
    (hlow : before.utf8ByteSize < offset) (hhigh : offset ≤ (before.push c).utf8ByteSize) :
    lineColumn (before.push c ++ after) offset = .behind (before.push c) := by
  rw [String.utf8ByteSize_push] at hhigh
  have h := walk_append ⟨1, 1⟩ before.toList (c :: after.toList) (offset - before.utf8ByteSize)
  rw [walk_cons _ c _ (by omega), show offset - before.utf8ByteSize - c.utf8Size = 0 by omega,
    walk_zero, String.ofList_toList, Nat.add_sub_cancel' hlow.le] at h
  have htext : (before.push c ++ after).toList = before.toList ++ c :: after.toList := by simp
  rw [lineColumn, htext, h, ← foldl_next, String.toList_push, List.foldl_append]
  rfl

/-- An offset past the end has the place of the end. -/
theorem lineColumn_past (text : String) {offset : Nat} (h : text.utf8ByteSize ≤ offset) :
    lineColumn text offset = .behind text := by
  have hwalk := walk_append ⟨1, 1⟩ text.toList [] (offset - text.utf8ByteSize)
  rwa [List.append_nil, String.ofList_toList, Nat.add_sub_cancel' h, foldl_next] at hwalk

/-- Of two texts that the same text starts with, the one with fewer bytes is a part of the other. -/
theorem exists_eq_append_of_lt {after' before' : String} (h : before ++ after = before' ++ after')
    (hlt : before.utf8ByteSize < before'.utf8ByteSize) :
    ∃ between : List Char, between ≠ [] ∧ before'.toList = before.toList ++ between := by
  have hlists := congrArg String.toList h
  rw [String.toList_append, String.toList_append] at hlists
  rcases List.append_eq_append_iff.mp hlists with ⟨between, hlonger, -⟩ | ⟨between, hlonger, -⟩
  · refine ⟨between, ?_, hlonger⟩
    rintro rfl
    rw [List.append_nil] at hlonger
    rw [String.toList_injective hlonger] at hlt
    exact absurd hlt (Nat.lt_irrefl _)
  · -- The other way round the first text would have more bytes.
    have hsize : before = before' ++ String.ofList between :=
      String.toList_injective (by rw [hlonger, String.toList_append, String.toList_ofList])
    rw [hsize, String.utf8ByteSize_append] at hlt
    omega

/-- Of two boundaries the later one has the later place. -/
theorem strictMonoOn_lineColumn (text : String) :
    StrictMonoOn (fun offset => (lineColumn text offset).key)
      {offset | (⟨offset⟩ : String.Pos.Raw).IsValid text} := by
  rintro offset h offset' h' hlt
  obtain ⟨before, after, rfl, hoffset⟩ := String.Pos.Raw.isValid_iff_exists_append.mp h
  obtain ⟨before', after', htext, hoffset'⟩ := String.Pos.Raw.isValid_iff_exists_append.mp h'
  obtain rfl : offset = before.utf8ByteSize := congrArg String.Pos.Raw.byteIdx hoffset
  obtain rfl : offset' = before'.utf8ByteSize := congrArg String.Pos.Raw.byteIdx hoffset'
  obtain ⟨between, hbetween, hlonger⟩ := exists_eq_append_of_lt htext hlt
  show (lineColumn _ _).key < (lineColumn _ _).key
  rw [lineColumn_boundary, htext, lineColumn_boundary, ← foldl_next, ← foldl_next, hlonger,
    List.foldl_append]
  exact key_lt_foldl _ hbetween

/-- On a boundary, or at the end, the line is one more than the newlines before the offset, and the
    column one more than the characters since the last of them. An offset inside a character has the
    place behind the character, one past the end that of the end. So a later offset has no earlier
    place, and different boundaries have different places. -/
theorem lineColumn_exact (text : String) :
    (∀ before after : String, text = before ++ after →
      lineColumn text before.utf8ByteSize = .behind before) ∧
    (∀ (before after : String) (c : Char) (offset : Nat), text = before.push c ++ after →
      before.utf8ByteSize < offset → offset < (before.push c).utf8ByteSize →
        lineColumn text offset = .behind (before.push c)) ∧
    (∀ offset, text.utf8ByteSize < offset → lineColumn text offset = .behind text) ∧
    Monotone (fun offset => (lineColumn text offset).key) ∧
    Set.InjOn (lineColumn text) {offset | (⟨offset⟩ : String.Pos.Raw).IsValid text} := by
  refine ⟨?_, ?_, fun offset h => lineColumn_past text h.le, key_walk_mono ⟨1, 1⟩ text.toList, ?_⟩
  · rintro before after rfl
    exact lineColumn_boundary before after
  · rintro before after c offset rfl hlow hhigh
    exact lineColumn_inside before after c hlow hhigh.le
  · intro offset h offset' h' heq
    exact (strictMonoOn_lineColumn text).injOn h h' (congrArg key heq)

/-- Behind a newline, inside a character of four bytes, past the end, and before and behind the
    newline. -/
theorem lineColumn_exact_wide :
    let text := "aé\n😀b"
    lineColumn text 4 = ⟨2, 1⟩ ∧ lineColumn text 6 = ⟨2, 2⟩ ∧ lineColumn text 100 = ⟨2, 3⟩ ∧
      lineColumn text 3 ≠ lineColumn text 4 := by
  intro text
  obtain ⟨hboundary, hinside, hpast, -, hinj⟩ := lineColumn_exact text
  have hbefore : (⟨3⟩ : String.Pos.Raw).IsValid text :=
    String.Pos.Raw.isValid_iff_exists_append.mpr ⟨"aé", "\n😀b", rfl, rfl⟩
  have hbehind : (⟨4⟩ : String.Pos.Raw).IsValid text :=
    String.Pos.Raw.isValid_iff_exists_append.mpr ⟨"aé\n", "😀b", rfl, rfl⟩
  refine ⟨hboundary "aé\n" "😀b" rfl, hinside "aé\n" "b" '😀' 6 rfl (by decide) (by decide), ?_,
    fun h => absurd (hinj hbefore hbehind h) (by decide)⟩
  rw [hpast 100 (by decide)]
  decide

end SqlTyping
