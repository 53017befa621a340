namespace SqlTyping

/-!
# JSON values and their text

* `Json` — a JSON value as the stored forms of this library need it: members keep their order and
  repetitions, numbers are kept when they are integer literals, and a string with an unpaired
  surrogate escape is known only to be one;
* `Json.parse?` — the reader: one value with blanks around it and nothing else;
* `Json.text` — the writer: no blanks, and only quotes, backslashes and control characters escaped.
-/

/-- A JSON value. -/
inductive Json where
  | null
  | bool (b : Bool)
  /-- A number; absent when it is not written as an integer literal. -/
  | number (value : Option Int)
  /-- A string; absent when an escape names half of a surrogate pair. -/
  | string (value : Option String)
  | array (items : List Json)
  | object (members : List (Option String × Json))

namespace Json

instance : Inhabited Json := ⟨null⟩

/-- An integer. -/
def int (i : Int) : Json := number (some i)

/-- A natural number. -/
def nat (n : Nat) : Json := int n

/-- A string. -/
def str (s : String) : Json := string (some s)

/-- An object with the given members. -/
def fields (members : List (String × Json)) : Json :=
  object (members.map fun (k, v) => (some k, v))

/-- A value or null. -/
def orNull {α : Type} (write : α → Json) : Option α → Json
  | none => null
  | some a => write a

/-! ### Reading -/

/-- The four blanks between tokens. -/
def isBlank (c : Char) : Bool := c = ' ' || c = '\t' || c = '\n' || c = '\r'

/-- The text behind leading blanks. -/
def skipBlanks (cs : List Char) : List Char := cs.dropWhile isBlank

/-- Leading digits and the text behind them. -/
def spanDigits (cs : List Char) : List Char × List Char :=
  (cs.takeWhile Char.isDigit, cs.dropWhile Char.isDigit)

/-- The number named by digits. -/
def digitsValue (ds : List Char) : Nat := ds.foldl (fun n c => 10 * n + (c.toNat - '0'.toNat)) 0

/-- The whole part of a number: zero, or digits that do not start with zero. -/
def readWhole? (cs : List Char) : Option (Nat × List Char) :=
  match spanDigits cs with
  | (['0'], rest) => some (0, rest)
  | ('0' :: _, _) | ([], _) => none
  | (ds, rest) => some (digitsValue ds, rest)

/-- A point with digits behind it, if there is a point: whether there is one, and the text behind
    it. -/
def readFraction? (cs : List Char) : Option (Bool × List Char) :=
  match cs with
  | '.' :: rest =>
    match spanDigits rest with
    | ([], _) => none
    | (_, behind) => some (true, behind)
  | _ => some (false, cs)

/-- The digits of an exponent, with or without a sign. -/
def readExponentDigits? (cs : List Char) : Option (Bool × List Char) :=
  let unsigned := match cs with
    | '+' :: rest | '-' :: rest => rest
    | _ => cs
  match spanDigits unsigned with
  | ([], _) => none
  | (_, behind) => some (true, behind)

/-- An exponent, if there is one: whether there is one, and the text behind. -/
def readExponent? (cs : List Char) : Option (Bool × List Char) :=
  match cs with
  | 'e' :: rest | 'E' :: rest => readExponentDigits? rest
  | _ => some (false, cs)

/-- A number. Only digits, with a minus sign unless they are zero, make an integer literal. -/
def readNumber? (cs : List Char) : Option (Json × List Char) := do
  let (negative, unsigned) := match cs with
    | '-' :: rest => (true, rest)
    | _ => (false, cs)
  let (whole, behind) ← readWhole? unsigned
  let (hasFraction, behind) ← readFraction? behind
  let (hasExponent, behind) ← readExponent? behind
  let value : Option Int :=
    if hasFraction || hasExponent then none
    -- There is no negative zero among the integers.
    else if negative then if whole = 0 then none else some (-(whole : Int))
    else some (whole : Int)
  return (number value, behind)

/-- The value of a hexadecimal digit. -/
def hexValue? (c : Char) : Option Nat :=
  if c.isDigit then some (c.toNat - '0'.toNat)
  else if 'a' ≤ c ∧ c ≤ 'f' then some (c.toNat - 'a'.toNat + 10)
  else if 'A' ≤ c ∧ c ≤ 'F' then some (c.toNat - 'A'.toNat + 10)
  else none

/-- A piece of a string: a character, or half of a surrogate pair named by an escape. -/
inductive Piece where
  | char (c : Char)
  | surrogate (unit : Nat)

/-- The piece named by the four digits of an escape. -/
def Piece.ofUnit (unit : Nat) : Piece :=
  if 0xD800 ≤ unit ∧ unit < 0xE000 then surrogate unit else char (Char.ofNat unit)

/-- The character of a one-letter escape. -/
def simpleEscape? : Char → Option Char
  | '"' => some '"'
  | '\\' => some '\\'
  | '/' => some '/'
  | 'b' => some '\x08'
  | 'f' => some '\x0c'
  | 'n' => some '\n'
  | 'r' => some '\r'
  | 't' => some '\t'
  | _ => none

/-- The code unit of an escape with four hexadecimal digits, and the text behind it. -/
def readUnit? : List Char → Option (Nat × List Char)
  | a :: b :: c :: d :: rest => do
    let unit := 4096 * (← hexValue? a) + 256 * (← hexValue? b) + 16 * (← hexValue? c)
    return (unit + (← hexValue? d), rest)
  | _ => none

/-- The piece named by an escape whose backslash has been read, and the text behind it. -/
def readEscape? : List Char → Option (Piece × List Char)
  | [] => none
  | c :: rest =>
    if c = 'u' then (readUnit? rest).map fun (unit, behind) => (.ofUnit unit, behind)
    else (simpleEscape? c).map fun escaped => (.char escaped, rest)

/-- The pieces of a string up to its closing quote, and the text behind it; at most `fuel` pieces
    are read. Control characters must be escaped. -/
def readPieces? : Nat → List Char → Option (List Piece × List Char)
  | 0, _ | _, [] => none
  | fuel + 1, c :: rest =>
    if c = '"' then some ([], rest)
    else if c = '\\' then do
      let (piece, behind) ← readEscape? rest
      let (pieces, behind) ← readPieces? fuel behind
      return (piece :: pieces, behind)
    else if c.toNat < 0x20 then none
    else do
      let (pieces, behind) ← readPieces? fuel rest
      return (.char c :: pieces, behind)

/-- The characters of a string. A leading half of a surrogate pair must be followed by a trailing
    half. -/
def joinPieces? : List Piece → Option (List Char)
  | [] => some []
  | .char c :: rest => (joinPieces? rest).map (c :: ·)
  | .surrogate high :: .surrogate low :: rest =>
    if high < 0xDC00 ∧ 0xDC00 ≤ low then
      (joinPieces? rest).map
        (Char.ofNat (0x10000 + 1024 * (high - 0xD800) + (low - 0xDC00)) :: ·)
    else none
  | .surrogate _ :: _ => none

/-- A string whose opening quote has been read. -/
def readString? (cs : List Char) : Option (Option String × List Char) := do
  let (pieces, behind) ← readPieces? (cs.length + 1) cs
  -- A string with an unpaired half is still well-formed text, so reading goes on behind it.
  return ((joinPieces? pieces).map String.ofList, behind)

/-- The text behind a word at its start. -/
def dropWord? : List Char → List Char → Option (List Char)
  | [], cs => some cs
  | w :: ws, c :: cs => if w = c then dropWord? ws cs else none
  | _ :: _, [] => none

/-- The text behind a given character and the blanks in front of it. -/
def dropMark? (mark : Char) (cs : List Char) : Option (List Char) :=
  dropWord? [mark] (skipBlanks cs)

/-- A number or one of the three words, and the text behind it. -/
def readAtom? (cs : List Char) : Option (Json × List Char) :=
  ((dropWord? ['n', 'u', 'l', 'l'] cs).map fun rest => (null, rest))
    <|> ((dropWord? ['t', 'r', 'u', 'e'] cs).map fun rest => (bool true, rest))
    <|> ((dropWord? ['f', 'a', 'l', 's', 'e'] cs).map fun rest => (bool false, rest))
    <|> readNumber? cs

mutual

/-- A value and the text behind it. Every call reads a character, so `fuel` need not exceed the
    length of the text. -/
def readValue? : Nat → List Char → Option (Json × List Char)
  | 0, _ => none
  | fuel + 1, cs =>
    match skipBlanks cs with
    | [] => none
    | c :: rest =>
      if c = '"' then (readString? rest).map fun (s, behind) => (string s, behind)
      else if c = '[' then
        match dropMark? ']' rest with
        | some behind => some (array [], behind)
        | none => (readItems? fuel rest).map fun (items, behind) => (array items, behind)
      else if c = '\x7b' then
        match dropMark? '\x7d' rest with
        | some behind => some (object [], behind)
        | none => (readMembers? fuel rest).map fun (members, behind) => (object members, behind)
      else readAtom? (c :: rest)

/-- The items of an array up to its closing bracket. -/
def readItems? : Nat → List Char → Option (List Json × List Char)
  | 0, _ => none
  | fuel + 1, cs => do
    let (item, behind) ← readValue? fuel cs
    match dropMark? ']' behind with
    | some rest => return ([item], rest)
    | none =>
      let (items, rest) ← readItems? fuel (← dropMark? ',' behind)
      return (item :: items, rest)

/-- The members of an object up to its closing brace. -/
def readMembers? : Nat → List Char → Option (List (Option String × Json) × List Char)
  | 0, _ => none
  | fuel + 1, cs => do
    let (key, behind) ← readString? (← dropMark? '"' cs)
    let (value, behind) ← readValue? fuel (← dropMark? ':' behind)
    match dropMark? '\x7d' behind with
    | some rest => return ([(key, value)], rest)
    | none =>
      let (members, rest) ← readMembers? fuel (← dropMark? ',' behind)
      return ((key, value) :: members, rest)

end

/-- The value written in a text with blanks around it and nothing else. -/
def parse? (text : String) : Option Json :=
  let cs := text.toList
  match readValue? (cs.length + 1) cs with
  | some (value, behind) => if (skipBlanks behind).isEmpty then some value else none
  | none => none

/-! ### Writing -/

/-- A hexadecimal digit in lower case. -/
def hexDigit (n : Nat) : Char := "0123456789abcdef".toList.getD (n % 16) '0'

/-- A character inside a string. -/
def escaped (c : Char) : List Char :=
  match c with
  | '"' => ['\\', '"']
  | '\\' => ['\\', '\\']
  | '\n' => ['\\', 'n']
  | '\t' => ['\\', 't']
  | '\r' => ['\\', 'r']
  | '\x08' => ['\\', 'b']
  | '\x0c' => ['\\', 'f']
  | _ =>
    if c.toNat < 0x20 then
      ['\\', 'u', '0', '0', hexDigit (c.toNat / 16), hexDigit c.toNat]
    else [c]

/-- A string between quotes. -/
def quoted (s : String) : String := "\"" ++ String.ofList (s.toList.flatMap escaped) ++ "\""

mutual

/-- A value without blanks. What is absent from a value is written as null. -/
def text : Json → String
  | null => "null"
  | bool b => if b then "true" else "false"
  | number value => (value.map toString).getD "null"
  | string value => (value.map quoted).getD "null"
  | array items => "[" ++ ",".intercalate (itemTexts items) ++ "]"
  | object members => "\x7b" ++ ",".intercalate (memberTexts members) ++ "\x7d"

/-- The items of an array, one by one. -/
def itemTexts : List Json → List String
  | [] => []
  | item :: rest => item.text :: itemTexts rest

/-- The members of an object, one by one. -/
def memberTexts : List (Option String × Json) → List String
  | [] => []
  | (key, value) :: rest => (quoted (key.getD "") ++ ":" ++ value.text) :: memberTexts rest

end

example : ((parse? " [1, -0, \"\\u0063\"] ").map text) = some "[1,null,\"c\"]" := by decide +kernel

end Json

end SqlTyping
