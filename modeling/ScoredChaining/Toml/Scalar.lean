import ScoredChaining.Decimal.Reading
import ScoredChaining.Json.Reader
import ScoredChaining.Toml.Basic

/-!
The words of TOML: blanks, comments, strings, numbers, dates and times.

Every reader takes the text and answers with what it has read and the rest of the text.
-/

namespace ScoredChaining.Toml

/-! ### Blanks and lines -/

/-- A blank within a line. -/
def isBlank (c : Char) : Bool :=
  c = ' ' || c = '\t'

/-- A character that may stand in a line: no control character but the tab. -/
def isPrintable (c : Char) : Bool :=
  c = '\t' || (32 ≤ c.toNat && c.toNat ≠ 127)

/-- Drops the blanks at the start. -/
def skipBlanks (cs : List Char) : List Char :=
  cs.dropWhile isBlank

/-- The text after a line end. A carriage return must be followed by a line feed. -/
def readNewline : List Char → Option (List Char)
  | '\n' :: rest => some rest
  | '\r' :: '\n' :: rest => some rest
  | _ => none

/-- Drops a comment, up to the end of the line. -/
def skipComment : List Char → List Char
  | '#' :: rest => rest.dropWhile isPrintable
  | cs => cs

/-- The text after the end of a line or at the end of the text, which only blanks and a comment may
precede. -/
def readLineEnd (cs : List Char) : Option (List Char) :=
  match skipComment (skipBlanks cs) with
  | [] => some []
  | rest => readNewline rest

/-- Drops blanks, line ends and whole comments. The fuel is at least the length of the text. -/
def skipLines : (fuel : Nat) → List Char → Option (List Char)
  | 0, _ => none
  | fuel + 1, cs =>
    match skipBlanks cs with
    | '#' :: rest =>
      match skipComment ('#' :: rest) with
      | [] => some []
      | rest => (readNewline rest).bind (skipLines fuel)
    | '\n' :: rest => skipLines fuel rest
    | '\r' :: '\n' :: rest => skipLines fuel rest
    | '\r' :: _ => none
    | rest => some rest

/-! ### Strings -/

/-- The character that a letter after a backslash stands for. -/
def unescape? : Char → Option Char
  | 'b' => some (Char.ofNat 8)
  | 't' => some '\t'
  | 'n' => some '\n'
  | 'f' => some (Char.ofNat 12)
  | 'r' => some '\r'
  | '"' => some '"'
  | '\\' => some '\\'
  | _ => none

/-- The character whose number hexadecimal digits give. -/
def ofCode? (cs : List Char) : Option Char :=
  match Json.ofHex? cs with
  | none => none
  | some n => if h : n.isValidChar then some (Char.ofNatAux n h) else none

/-- The characters up to the closing quote, given those read so far, last one first. -/
def readBasic (reversed : List Char) : List Char → Option (String × List Char)
  | [] => none
  | '"' :: rest => some (String.ofList reversed.reverse, rest)
  | '\\' :: 'u' :: a :: b :: c :: d :: rest =>
    match ofCode? [a, b, c, d] with
    | none => none
    | some x => readBasic (x :: reversed) rest
  | '\\' :: c :: rest =>
    match unescape? c with
    | some x => readBasic (x :: reversed) rest
    | none =>
      match c, rest with
      | 'U', e :: f :: g :: h :: i :: j :: k :: l :: rest =>
        match ofCode? [e, f, g, h, i, j, k, l] with
        | none => none
        | some x => readBasic (x :: reversed) rest
      | _, _ => none
  | c :: rest => if c = '\\' || !isPrintable c then none else readBasic (c :: reversed) rest

/-- A backslash here stands at the end of its line. -/
def endsLine (cs : List Char) : Bool :=
  (readNewline (skipBlanks cs)).isSome

/-- The characters up to three closing quotes, given those read so far, last one first. One or two
more quotes before the closing ones belong to the text. While `skipping`, after a backslash at the
end of a line, blanks and line ends are dropped. -/
def readLongBasic (skipping : Bool) (reversed : List Char) :
    List Char → Option (String × List Char)
  | [] => none
  | '"' :: '"' :: '"' :: rest =>
    match rest with
    | '"' :: '"' :: rest => some (String.ofList ('"' :: '"' :: reversed).reverse, rest)
    | '"' :: rest => some (String.ofList ('"' :: reversed).reverse, rest)
    | rest => some (String.ofList reversed.reverse, rest)
  | '\r' :: rest =>
    match rest with
    | '\n' :: rest => readLongBasic skipping (if skipping then reversed else '\n' :: reversed) rest
    | _ => none
  | '\n' :: rest => readLongBasic skipping (if skipping then reversed else '\n' :: reversed) rest
  | '\\' :: 'u' :: a :: b :: c :: d :: rest =>
    match ofCode? [a, b, c, d] with
    | none => none
    | some x => readLongBasic false (x :: reversed) rest
  | '\\' :: c :: rest =>
    match unescape? c with
    | some x => readLongBasic false (x :: reversed) rest
    | none =>
      if endsLine (c :: rest) then
        if c = '\r' then
          match rest with
          | '\n' :: rest => readLongBasic true reversed rest
          | _ => none
        else readLongBasic true reversed rest
      else
        match c, rest with
        | 'U', e :: f :: g :: h :: i :: j :: k :: l :: rest =>
          match ofCode? [e, f, g, h, i, j, k, l] with
          | none => none
          | some x => readLongBasic false (x :: reversed) rest
        | _, _ => none
  | c :: rest =>
    if skipping && isBlank c then readLongBasic true reversed rest
    else if c = '\\' || !isPrintable c then none
    else readLongBasic false (c :: reversed) rest

/-- The characters up to the closing apostrophe, as they are. -/
def readLiteral (reversed : List Char) : List Char → Option (String × List Char)
  | [] => none
  | '\'' :: rest => some (String.ofList reversed.reverse, rest)
  | c :: rest => if isPrintable c then readLiteral (c :: reversed) rest else none

/-- The characters up to three closing apostrophes, as they are. One or two more apostrophes before
the closing ones belong to the text. -/
def readLongLiteral (reversed : List Char) : List Char → Option (String × List Char)
  | [] => none
  | '\'' :: '\'' :: '\'' :: rest =>
    match rest with
    | '\'' :: '\'' :: rest => some (String.ofList ('\'' :: '\'' :: reversed).reverse, rest)
    | '\'' :: rest => some (String.ofList ('\'' :: reversed).reverse, rest)
    | rest => some (String.ofList reversed.reverse, rest)
  | '\r' :: rest =>
    match rest with
    | '\n' :: rest => readLongLiteral ('\n' :: reversed) rest
    | _ => none
  | c :: rest =>
    if c = '\n' || isPrintable c then readLongLiteral (c :: reversed) rest else none

/-- A line end directly after the opening of a long string does not belong to it. -/
def dropFirstNewline (cs : List Char) : List Char :=
  (readNewline cs).getD cs

/-- A string of any of the four forms. -/
def readString : List Char → Option (String × List Char)
  | '"' :: '"' :: '"' :: rest => readLongBasic false [] (dropFirstNewline rest)
  | '"' :: rest => readBasic [] rest
  | '\'' :: '\'' :: '\'' :: rest => readLongLiteral [] (dropFirstNewline rest)
  | '\'' :: rest => readLiteral [] rest
  | _ => none

/-! ### Numbers -/

/-- The digits after the first one of a number. Single underscores may stand between digits and are
dropped. -/
def readMoreDigits (isDigit : Char → Bool) : List Char → Option (List Char × List Char)
  | [] => some ([], [])
  | '_' :: [] => none
  | '_' :: c :: rest =>
    if isDigit c then (readMoreDigits isDigit rest).map fun (cs, rest) => (c :: cs, rest) else none
  | c :: rest =>
    if isDigit c then (readMoreDigits isDigit rest).map fun (cs, rest) => (c :: cs, rest)
    else some ([], c :: rest)

/-- At least one digit, without the underscores. -/
def readDigits (isDigit : Char → Bool) : List Char → Option (List Char × List Char)
  | [] => none
  | c :: rest =>
    if isDigit c then (readMoreDigits isDigit rest).map fun (cs, rest) => (c :: cs, rest) else none

/-- An optional sign. -/
def readSign : List Char → List Char × List Char
  | '+' :: rest => (['+'], rest)
  | '-' :: rest => (['-'], rest)
  | cs => ([], cs)

/-- A whole number in decimal: nothing follows a leading zero. -/
def readWhole (cs : List Char) : Option (List Char × List Char) :=
  let (sign, cs) := readSign cs
  match cs with
  | '0' :: rest => some (sign ++ ['0'], rest)
  | cs => (readDigits Decimal.isDigit cs).map fun (digits, rest) => (sign ++ digits, rest)

/-- An exponent. -/
def readExponent : List Char → Option (List Char × List Char)
  | c :: rest =>
    if c = 'e' || c = 'E' then
      let (sign, rest) := readSign rest
      (readDigits Decimal.isDigit rest).map fun (digits, rest) => ('e' :: sign ++ digits, rest)
    else none
  | [] => none

/-- What makes a number a floating-point number: places after a point, an exponent, or both. -/
def readFraction : List Char → Option (List Char × List Char)
  | '.' :: rest =>
    match readDigits Decimal.isDigit rest with
    | none => none
    | some (digits, rest) =>
      match rest with
      | c :: _ =>
        if c = 'e' || c = 'E' then
          (readExponent rest).map fun (power, rest) => ('.' :: digits ++ power, rest)
        else some ('.' :: digits, rest)
      | [] => some ('.' :: digits, [])
  | cs => readExponent cs

/-- Infinity or not-a-number by name, with an optional sign. -/
def readNamedFloat (cs : List Char) : Option (Float × List Char) :=
  let (sign, rest) := readSign cs
  let named : Option (Float × List Char) :=
    match rest with
    | 'i' :: 'n' :: 'f' :: rest => some (1.0 / 0.0, rest)
    | 'n' :: 'a' :: 'n' :: rest => some (0.0 / 0.0, rest)
    | _ => none
  named.map fun (x, rest) => (if sign = ['-'] then -x else x, rest)

/-- A floating-point number. One that is too large is refused, unless it is negative. -/
def readFloat (cs : List Char) : Option (Float × List Char) :=
  match readWhole cs with
  | none => readNamedFloat cs
  | some (whole, rest) =>
    match readFraction rest with
    | none => none
    | some (fraction, rest) =>
      match Decimal.readFloat? (whole ++ fraction) with
      | none => none
      | some x => if x == 1.0 / 0.0 then none else some (x, rest)

/-- The digit is one in base `base`. -/
def isDigitIn (base : Nat) (c : Char) : Bool :=
  (Json.hexValue? c).any (· < base)

/-- The number of digits in a base, if it fits. -/
def inBase (base : Nat) (cs : List Char) : Option Int64 :=
  let n := cs.foldl (fun n c => base * n + (Json.hexValue? c).getD 0) 0
  if n ≤ Int64.maxValue.toInt then some (Int64.ofNat n) else none

/-- A whole number in base `base`, after its mark. -/
def readInBase (base : Nat) (cs : List Char) : Option (Int64 × List Char) :=
  match readDigits (isDigitIn base) cs with
  | none => none
  | some (digits, rest) => (inBase base digits).map fun n => (n, rest)

/-- An integer. -/
def readInteger : List Char → Option (Int64 × List Char)
  | '0' :: 'x' :: rest => readInBase 16 rest
  | '0' :: 'o' :: rest => readInBase 8 rest
  | '0' :: 'b' :: rest => readInBase 2 rest
  | cs =>
    match readWhole cs with
    | none => none
    | some (whole, rest) => (Decimal.readInt64? whole).map fun n => (n, rest)

/-! ### Dates and times -/

/-- A number of `count` digits. -/
def readFixed (count : Nat) (cs : List Char) : Option (Nat × List Char) :=
  (Decimal.readNat? (cs.take count)).bind fun n =>
    if count ≤ cs.length then some (n, cs.drop count) else none

/-- The text after a mark. -/
def expect (mark : Char) : List Char → Option (List Char)
  | c :: rest => if c = mark then some rest else none
  | [] => none

/-- The days of a month. -/
def daysIn (year month : Nat) : Nat :=
  let isLeap := year % 4 = 0 && (year % 100 ≠ 0 || year % 400 = 0)
  if month = 2 then (if isLeap then 29 else 28)
  else if [4, 6, 9, 11].contains month then 30
  else 31

/-- The text after a date, which must exist. -/
def readDate (cs : List Char) : Option (List Char) := do
  let (year, cs) ← readFixed 4 cs
  let cs ← expect '-' cs
  let (month, cs) ← readFixed 2 cs
  let cs ← expect '-' cs
  let (day, cs) ← readFixed 2 cs
  if 1 ≤ month && month ≤ 12 && 1 ≤ day && day ≤ daysIn year month then some cs else none

/-- The text after an hour and a minute. -/
def readHourMinute (cs : List Char) : Option (List Char) := do
  let (hour, cs) ← readFixed 2 cs
  let cs ← expect ':' cs
  let (minute, cs) ← readFixed 2 cs
  if hour ≤ 23 && minute ≤ 59 then some cs else none

/-- The text after a time of day. There may be a leap second, and parts of a second. -/
def readTime (cs : List Char) : Option (List Char) := do
  let cs ← readHourMinute cs
  let cs ← expect ':' cs
  let (second, cs) ← readFixed 2 cs
  if 60 < second then none
  else
    match cs with
    | '.' :: c :: rest =>
      if Decimal.isDigit c then some (rest.dropWhile Decimal.isDigit) else some cs
    | cs => some cs

/-- The text after a difference to universal time, if there is one. -/
def skipOffset : List Char → Option (List Char)
  | 'Z' :: rest => some rest
  | 'z' :: rest => some rest
  | '+' :: rest => readHourMinute rest
  | '-' :: rest => readHourMinute rest
  | cs => some cs

/-- The text after a time that may follow a date. -/
def skipTime (cs : List Char) : Option (List Char) :=
  match cs with
  | c :: rest =>
    if c = 'T' || c = 't' || c = ' ' then
      match readTime rest with
      | some rest => skipOffset rest
      | none => some cs
    else some cs
  | [] => some []

/-- The text after a date, a time, or both. -/
def readMoment (cs : List Char) : Option (List Char) :=
  match readDate cs with
  | some rest => skipTime rest
  | none => readTime cs

/-! ### Together -/

/-- A number, a date or a time. -/
def readNumber (cs : List Char) : Option (Toml × List Char) :=
  match readMoment cs with
  | some rest => some (.moment, rest)
  | none =>
    match readFloat cs with
    | some (x, rest) => some (.float x, rest)
    | none => (readInteger cs).map fun (n, rest) => (.int n, rest)

/-- A value that holds no other values. -/
def readScalar : List Char → Option (Toml × List Char)
  | 't' :: 'r' :: 'u' :: 'e' :: rest => some (.bool true, rest)
  | 'f' :: 'a' :: 'l' :: 's' :: 'e' :: rest => some (.bool false, rest)
  | cs =>
    match cs with
    | '"' :: _ => (readString cs).map fun (s, rest) => (.str s, rest)
    | '\'' :: _ => (readString cs).map fun (s, rest) => (.str s, rest)
    | _ => readNumber cs

end ScoredChaining.Toml
