import Mathlib.Data.Set.Function
import SqlTyping.Literal

namespace SqlTyping

/-!
# Reading literals between quotes

Character and binary literals are read back from their texts:

* `Text.Quoted.read?_eq_some_iff`, `Text.Hex.read?_eq_some_iff` — the two readers accept what is
  written and nothing else, so every text has one meaning and every content one text;
* `Literal.readBinary?` — the reader of an `X` and pairs of digits between quotes;
* `Literal.quoted_faithful` — the text of such a literal closes at its last character and gives the
  content, so it tells the literal.
-/

namespace Text

/-! ### Quoted strings -/

namespace Quoted

variable {text s rest : List Char}

/-- A quoted body that has been read is the content with its quotes doubled, and an unpaired quote. -/
theorem eq_of_body?_eq_some (h : body? text = some (s, rest)) :
    text = encode s ++ '\'' :: rest ∧ rest.head? ≠ some '\'' := by
  fun_induction body? text generalizing s with
  | case1 => simp at h
  | case2 text ih =>
    obtain ⟨⟨s', rest'⟩, hbody, heq⟩ := Option.map_eq_some_iff.mp h
    obtain ⟨rfl, rfl⟩ := Prod.mk.inj heq
    obtain ⟨rfl, hrest⟩ := ih hbody
    exact ⟨by simp [encode], hrest⟩
  | case3 text hpair =>
    obtain ⟨rfl, rfl⟩ := Prod.mk.inj (Option.some.inj h)
    refine ⟨rfl, fun hhead => ?_⟩
    obtain ⟨rest', rfl⟩ := List.head?_eq_some_iff.mp hhead
    exact hpair rest' rfl
  | case4 c text _ hquote ih =>
    obtain ⟨⟨s', rest'⟩, hbody, heq⟩ := Option.map_eq_some_iff.mp h
    obtain ⟨rfl, rfl⟩ := Prod.mk.inj heq
    obtain ⟨rfl, hrest⟩ := ih hbody
    have hc : c ≠ '\'' := hquote
    exact ⟨by simp [encode, hc], hrest⟩

/-- Reading accepts what is written, where no further quote follows, and nothing else. -/
theorem read?_eq_some_iff :
    read? text = some (s, rest) ↔ text = write s ++ rest ∧ rest.head? ≠ some '\'' := by
  constructor
  · intro h
    unfold read? at h
    split at h
    · obtain ⟨rfl, hrest⟩ := eq_of_body?_eq_some h
      exact ⟨by simp [write], hrest⟩
    · cases h
  · rintro ⟨rfl, hrest⟩
    exact read?_write s hrest

/-- Without quotes the content stands as it is. -/
theorem encode_of_not_mem (h : '\'' ∉ s) : encode s = s := by
  induction s with
  | nil => rfl
  | cons c s ih =>
    have hc : c ≠ '\'' := fun hc => h (hc ▸ List.mem_cons_self)
    rw [encode, if_neg hc, ih fun hs => h (List.mem_cons_of_mem c hs)]

end Quoted

/-! ### Pairs of hexadecimal digits -/

namespace Hex

theorem digit_of_value? {c : Char} {n : Nat} (h : value? c = some n) : n < 16 ∧ digit n = c := by
  obtain ⟨hlt, rfl, -⟩ := List.idxOf?_eq_some_iff.mp h
  have hn : n < 16 := hlt
  exact ⟨hn, by simp [digit, Nat.mod_eq_of_lt hn, List.getD_eq_getElem?_getD, hlt]⟩

theorem digit_ne_quote (n : Nat) : digit n ≠ '\'' := by
  have h : ∀ k < 16, digits.getD k '0' ≠ '\'' := by decide
  exact h (n % 16) (Nat.mod_lt _ (by decide))

/-- Quotes are no digits. -/
theorem quote_not_mem_write (bytes : List UInt8) : '\'' ∉ write bytes := by
  induction bytes with
  | nil => exact List.not_mem_nil
  | cons b bytes ih => simp [write, ih, (digit_ne_quote _).symm]

/-- A byte is written by the digits of its halves. -/
theorem write_ofNat_cons {high low : Nat} (hhigh : high < 16) (hlow : low < 16)
    (bytes : List UInt8) :
    write (UInt8.ofNat (16 * high + low) :: bytes) = digit high :: digit low :: write bytes := by
  have hlt : 16 * high + low < 256 := by omega
  have hbyte : (UInt8.ofNat (16 * high + low)).toNat = 16 * high + low :=
    UInt8.toNat_ofNat_of_lt' hlt
  have hhalf : (16 * high + low) / 16 = high := by omega
  have hrest : digit (16 * high + low) = digit low := by
    unfold digit
    rw [show (16 * high + low) % 16 = low % 16 by omega]
  rw [write, hbyte, hhalf, hrest]

/-- Reading accepts what is written and nothing else. -/
theorem read?_eq_some_iff {text : List Char} {bytes : List UInt8} :
    read? text = some bytes ↔ text = write bytes := by
  refine ⟨fun h => ?_, fun h => h ▸ read?_write bytes⟩
  fun_induction read? text generalizing bytes with
  | case1 =>
    obtain rfl := Option.some.inj h
    rfl
  | case2 high low rest ih =>
    simp only [Option.bind_eq_bind, Option.bind_eq_some_iff] at h
    obtain ⟨n, hhigh, m, hlow, bytes', hrest, heq⟩ := h
    obtain rfl := Option.some.inj heq
    obtain ⟨hn, rfl⟩ := digit_of_value? hhigh
    obtain ⟨hm, rfl⟩ := digit_of_value? hlow
    rw [write_ofNat_cons hn hm, ih hrest]
  | case3 => cases h

end Hex

end Text

/-! ### Literals -/

namespace Literal

/-- The strings among the literals, of characters or of bytes. -/
inductive IsQuoted : Literal → Prop
  | string (s : String) : IsQuoted (.string s)
  | binary (bytes : List UInt8) : IsQuoted (.binary bytes)

/-- Reads a binary literal at the start of a text, which is an `X` and pairs of digits between
    quotes: the bytes, and the text behind the closing quote. -/
def readBinary? : List Char → Option (List UInt8 × List Char)
  | 'X' :: text => do
    let (digits, rest) ← Text.Quoted.read? text
    return (← Text.Hex.read? digits, rest)
  | _ => none

theorem toList_text_string (s : String) : (string s).text.toList = Text.Quoted.write s.toList :=
  String.toList_ofList

/-- Digits need no care between quotes. -/
theorem toList_text_binary (bytes : List UInt8) :
    (binary bytes).text.toList = 'X' :: Text.Quoted.write (Text.Hex.write bytes) := by
  have hplain := Text.Quoted.encode_of_not_mem (Text.Hex.quote_not_mem_write bytes)
  simp [text, Text.Quoted.write, hplain, String.toList_append]

/-- The reader of binary literals accepts their texts, where no quote follows, and nothing else. -/
theorem readBinary?_eq_some_iff {text rest : List Char} {bytes : List UInt8} :
    readBinary? text = some (bytes, rest) ↔
      text = (binary bytes).text.toList ++ rest ∧ rest.head? ≠ some '\'' := by
  rw [toList_text_binary]
  constructor
  · intro h
    unfold readBinary? at h
    split at h
    · simp only [Option.bind_eq_bind, Option.bind_eq_some_iff] at h
      obtain ⟨⟨digits, rest'⟩, hquoted, bytes', hbytes, heq⟩ := h
      obtain ⟨rfl, rfl⟩ := Prod.mk.inj (Option.some.inj heq)
      obtain ⟨rfl, hrest⟩ := Text.Quoted.read?_eq_some_iff.mp hquoted
      obtain rfl := Text.Hex.read?_eq_some_iff.mp hbytes
      exact ⟨rfl, hrest⟩
    · cases h
  · rintro ⟨rfl, hrest⟩
    simp [readBinary?, Text.Quoted.read?_write _ hrest, Text.Hex.read?_write]

theorem read?_text_string (s : String) :
    Text.Quoted.read? (string s).text.toList = some (s.toList, []) :=
  Text.Quoted.read?_eq_some_iff.mpr ⟨by rw [toList_text_string, List.append_nil], by simp⟩

theorem readBinary?_text_binary (bytes : List UInt8) :
    readBinary? (binary bytes).text.toList = some (bytes, []) :=
  readBinary?_eq_some_iff.mpr ⟨(List.append_nil _).symm, by simp⟩

/-- Already the first character tells the two kinds apart. -/
theorem text_string_ne_text_binary (s : String) (bytes : List UInt8) :
    (string s).text ≠ (binary bytes).text := by
  intro h
  have hlists := congrArg String.toList h
  rw [toList_text_string, toList_text_binary] at hlists
  exact absurd (List.cons.inj hlists).1 (by decide)

theorem injOn_text_quoted : Set.InjOn text {l | l.IsQuoted} := by
  rintro _ (s | bytes) _ (s' | bytes') h
  · have hread := read?_text_string s
    rw [h, read?_text_string s'] at hread
    have hcontent := (Prod.mk.inj (Option.some.inj hread)).1
    rw [String.toList_inj.mp hcontent]
  · exact absurd h (text_string_ne_text_binary s bytes')
  · exact absurd h.symm (text_string_ne_text_binary s' bytes)
  · have hread := readBinary?_text_binary bytes
    rw [h, readBinary?_text_binary bytes'] at hread
    rw [(Prod.mk.inj (Option.some.inj hread)).1]

/-- By the standard rule the text of a character literal closes at its last character and gives the
    string; the text of a binary literal, read as an `X` and pairs of digits between quotes, does so
    and gives the bytes. So no two of these literals have one text. -/
theorem quoted_faithful :
    (∀ s : String, Text.Quoted.read? (string s).text.toList = some (s.toList, [])) ∧
    (∀ bytes : List UInt8, readBinary? (binary bytes).text.toList = some (bytes, [])) ∧
    Set.InjOn text {l | l.IsQuoted} :=
  ⟨read?_text_string, readBinary?_text_binary, injOn_text_quoted⟩

-- Quotes at both ends and in a row.
example : (string "'a''").text = "'''a'''''" := by decide

end Literal

end SqlTyping
