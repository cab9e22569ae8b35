import ScaraArm.Document.Toml.Number

/-!
# TOML scalars

Numbers, dates and texts as TOML 1.1 writes them. Numbers and dates are runs of
characters and are judged as a whole; texts come in four kinds of quotes and are first
cut out of the document and then unescaped.
-/

namespace ScaraArm.Document.Toml

open Json (hexValue?)

/-- The blanks inside a line. -/
def isBlank (c : Char) : Bool := c == ' ' || c == '\t'

/-- The characters allowed in texts and comments on one line: all but the control
characters, the tab excepted. -/
def isPlain (c : Char) : Bool := c == '\t' || (decide (0x20 ≤ c.toNat) && c.toNat != 0x7F)

/-- The characters that end a number, a date or a word, blanks excepted. -/
def isMark (c : Char) : Bool :=
  ['\n', '\r', '#', '=', ',', '[', ']', '{', '}'].contains c

/-! ## Dates -/

/-- A number of exactly so many digits. -/
def fixedDigits? (count : Nat) (cs : List Char) : Option (Nat × List Char) :=
  let digits := cs.take count
  if digits.length = count ∧ digits.all Char.isDigit then
    some (Nat.ofDigitChars 10 digits 0, cs.drop count)
  else none

/-- How many days a month has. -/
def daysIn (year month : Nat) : Nat :=
  if month = 2 then
    if year % 4 = 0 ∧ (year % 100 ≠ 0 ∨ year % 400 = 0) then 29 else 28
  else if month = 4 ∨ month = 6 ∨ month = 9 ∨ month = 11 then 30
  else 31

/-- Passes over a date. -/
def skipDate? (cs : List Char) : Option (List Char) := do
  let (year, cs) ← fixedDigits? 4 cs
  let '-' :: cs := cs | none
  let (month, cs) ← fixedDigits? 2 cs
  let '-' :: cs := cs | none
  let (day, cs) ← fixedDigits? 2 cs
  if 1 ≤ month ∧ month ≤ 12 ∧ 1 ≤ day ∧ day ≤ daysIn year month then some cs else none

/-- Passes over an hour and a minute. -/
def skipMinutes? (cs : List Char) : Option (List Char) := do
  let (hour, cs) ← fixedDigits? 2 cs
  let ':' :: cs := cs | none
  let (minute, cs) ← fixedDigits? 2 cs
  if hour ≤ 23 ∧ minute ≤ 59 then some cs else none

/-- Passes over seconds with or without a fraction, if there are any. A minute may have a
leap second. -/
def skipSeconds? : List Char → Option (List Char)
  | ':' :: cs => do
    let (second, cs) ← fixedDigits? 2 cs
    if second ≤ 60 then
      match cs with
      | '.' :: cs =>
        let (digits, rest) := Numeral.scanDigits cs
        if digits.isEmpty then none else some rest
      | cs => some cs
    else none
  | cs => some cs

/-- Passes over a time of day. -/
def skipTime? (cs : List Char) : Option (List Char) := skipMinutes? cs >>= skipSeconds?

/-- Passes over the offset of a time from world time, if there is one. -/
def skipOffset? : List Char → Option (List Char)
  | 'Z' :: cs | 'z' :: cs => some cs
  | '+' :: cs | '-' :: cs => skipMinutes? cs
  | cs => some cs

/-- Whether a run is a date, a time of day, or both with or without an offset. -/
def isInstant (run : List Char) : Bool :=
  match skipDate? run with
  | some [] => true
  | some (c :: cs) =>
    (c == 'T' || c == 't' || c == ' ') && (skipTime? cs >>= skipOffset?) == some []
  | none => skipTime? run == some []

/-- The document of a run: a truth value, a number or a date. -/
def ofRun? (run : List Char) : Option Value :=
  match run with
  | ['t', 'r', 'u', 'e'] => some (.boolean true)
  | ['f', 'a', 'l', 's', 'e'] => some (.boolean false)
  | run => if isInstant run then some .instant else Number.ofRun? run

/-- Whether a run goes on behind blanks: it does with anything but a mark, a dot or a quote. -/
def goesOn (cs : List Char) : Bool :=
  match cs.dropWhile isBlank with
  | [] => false
  | c :: _ => !isMark c && c != '.' && c != '"' && c != '\''

/-- Takes a run off the text. It ends in front of a mark, or of blanks that nothing of it
follows. -/
def scanRun : List Char → List Char × List Char
  | [] => ([], [])
  | c :: cs =>
    if isMark c || isBlank c && !goesOn cs then ([], c :: cs)
    else
      let (run, rest) := scanRun cs
      (c :: run, rest)

/-- A number, date or truth value at the head of the text. -/
def scanScalar (cs : List Char) : Option (Value × List Char) :=
  let (run, rest) := scanRun cs
  (ofRun? run).map (·, rest)

/-! ## Texts -/

/-- The inside of a text on one line, up to the closing quote. Where escapes count, the
character behind a backslash does not close; `escaped` tells that it is the next one. -/
def scanLine (quote : Char) (escapes escaped : Bool) : List Char → Option (List Char × List Char)
  | [] => none
  | c :: rest =>
    if c = quote ∧ !escaped then some ([], rest)
    else if !isPlain c then none
    else
      (scanLine quote escapes (escapes && !escaped && c == '\\') rest).map fun (body, rest) =>
        (c :: body, rest)

/-- Up to two quotes in front of the three that close a text over several lines belong to
the text. Called behind three quotes. -/
def closeLines (quote : Char) : List Char → List Char × List Char
  | c :: d :: rest =>
    if c = quote then
      if d = quote then ([quote, quote], rest) else ([quote], d :: rest)
    else ([], c :: d :: rest)
  | [c] => if c = quote then ([quote], []) else ([], [c])
  | [] => ([], [])

/-- The inside of a text over several lines, up to the closing quotes. -/
def scanLines (quote : Char) (escapes escaped : Bool) :
    List Char → Option (List Char × List Char)
  | [] => none
  | c :: rest =>
    if c = quote ∧ rest.take 2 = [quote, quote] ∧ !escaped then
      some (closeLines quote (rest.drop 2))
    else if c = '\r' ∧ rest.head? ≠ some '\n' then none
    else if !(isPlain c || c == '\n' || c == '\r') then none
    else
      (scanLines quote escapes (escapes && !escaped && c == '\\') rest).map fun (body, rest) =>
        (c :: body, rest)

/-- A line end right behind the opening quotes does not count. -/
def dropFirstLineEnd : List Char → List Char
  | '\n' :: cs => cs
  | '\r' :: '\n' :: cs => cs
  | cs => cs

/-- Whether a line holds nothing but blanks from here on. -/
def isRestOfLineBlank (cs : List Char) : Bool :=
  match cs.dropWhile isBlank with
  | '\n' :: _ | '\r' :: '\n' :: _ => true
  | _ => false

/-- The character of a number, surrogates excepted. -/
def charOf? (n : Nat) : Option Char :=
  if h : n.isValidChar then some (Char.ofNatAux n h) else none

/-- The character that a letter behind a backslash stands for. -/
def letterEscape? : Char → Option Char
  | '"' => some '"'
  | '\\' => some '\\'
  | 'b' => some '\x08'
  | 'e' => some '\x1b'
  | 'f' => some '\x0c'
  | 'n' => some '\n'
  | 'r' => some '\r'
  | 't' => some '\t'
  | _ => none

/-- Resolves the escapes of a text. A backslash at the end of a line takes all blanks and
line ends behind it with it; `trimming` tells that this is going on. -/
def unescape? (trimming : Bool) : List Char → Option (List Char)
  | [] => some []
  | '\\' :: 'u' :: a :: b :: c :: d :: rest => do
    let c ← hexValue? [a, b, c, d] >>= charOf?
    (unescape? false rest).map (c :: ·)
  | '\\' :: 'U' :: a :: b :: c :: d :: e :: f :: g :: h :: rest => do
    let c ← hexValue? [a, b, c, d, e, f, g, h] >>= charOf?
    (unescape? false rest).map (c :: ·)
  | '\\' :: 'x' :: a :: b :: rest => do
    let c ← hexValue? [a, b] >>= charOf?
    (unescape? false rest).map (c :: ·)
  | '\\' :: c :: rest =>
    match letterEscape? c with
    | some c => (unescape? false rest).map (c :: ·)
    | none => if isRestOfLineBlank (c :: rest) then unescape? true rest else none
  | c :: rest =>
    if trimming && (isBlank c || c == '\n' || c == '\r') then unescape? true rest
    else (unescape? false rest).map (c :: ·)

/-- A text on one line at the head of the document. -/
def scanText : List Char → Option (String × List Char)
  | '"' :: cs => do
    let (body, rest) ← scanLine '"' true false cs
    let body ← unescape? false body
    some (String.ofList body, rest)
  | '\'' :: cs => do
    let (body, rest) ← scanLine '\'' false false cs
    some (String.ofList body, rest)
  | _ => none

/-- A text in any quotes at the head of the document. -/
def scanAnyText : List Char → Option (String × List Char)
  | '"' :: '"' :: '"' :: cs => do
    let (body, rest) ← scanLines '"' true false (dropFirstLineEnd cs)
    let body ← unescape? false body
    some (String.ofList body, rest)
  | '\'' :: '\'' :: '\'' :: cs => do
    let (body, rest) ← scanLines '\'' false false (dropFirstLineEnd cs)
    some (String.ofList body, rest)
  | cs => scanText cs

end ScaraArm.Document.Toml
