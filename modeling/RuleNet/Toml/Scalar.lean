/-
  Values of TOML that are written as one word: booleans, numbers, dates and times.

  * `integer?`, `double?`, `isDateTime` read a whole word.
  * `readWord` takes a word from a text; a date and a time may stand with a space between them.
-/
import RuleNet.Time.Instant
import RuleNet.Toml.Table
import RuleNet.Toml.Text

namespace RuleNet.Toml

/-! ## Digits -/

/-- Digits, any two of which may have an underscore between them; the digits alone. -/
def grouped? (isDigit : Char → Bool) : List Char → Option (List Char)
  | [] => none
  | [c] => if isDigit c then some [c] else none
  | c :: '_' :: rest => if isDigit c then (grouped? isDigit rest).map (c :: ·) else none
  | c :: rest => if isDigit c then (grouped? isDigit rest).map (c :: ·) else none

/-- The number that digits stand for. -/
def number (base : Nat) (digits : List Char) : Nat :=
  digits.foldl (fun n c => base * n + (hexDigit? c).getD 0) 0

/-- Decimal digits without a zero in front. -/
def wholeDigits? (cs : List Char) : Option (List Char) := do
  let digits ← grouped? Char.isDigit cs
  if digits.head? = some '0' ∧ 1 < cs.length then none else some digits

/-- Whether a number has a minus, and the number without its sign. -/
def sign (cs : List Char) : Bool × List Char := match cs with
  | '-' :: rest => (true, rest)
  | '+' :: rest => (false, rest)
  | _ => (false, cs)

/-- The integer with a sign. -/
def signed (negative : Bool) (n : Nat) : Int := if negative then -(n : Int) else n

/-! ## Numbers -/

/-- A number in the digits of a base. -/
def inBase? (base : Nat) (cs : List Char) : Option Int :=
  (grouped? (fun c => (hexDigit? c).any (· < base)) cs).map fun digits => (number base digits : Int)

/-- An integer of 64 bits: decimal with an optional sign, or hexadecimal, octal or binary. -/
def integer? (word : List Char) : Option Int :=
  let value : Option Int := match word with
    | '0' :: 'x' :: digits => inBase? 16 digits
    | '0' :: 'o' :: digits => inBase? 8 digits
    | '0' :: 'b' :: digits => inBase? 2 digits
    | _ =>
      let (negative, digits) := sign word
      (wholeDigits? digits).map fun digits => signed negative (number 10 digits)
  value.filter Integer64.holds

def isExponentMark (c : Char) : Bool := c == 'e' || c == 'E'

/-- The digits after a point, if there is one, and the rest. -/
def fraction? : List Char → Option (List Char × List Char)
  | '.' :: rest => do
    let digits ← grouped? Char.isDigit (rest.takeWhile fun c => !isExponentMark c)
    some (digits, rest.dropWhile fun c => !isExponentMark c)
  | rest => some ([], rest)

/-- The exponent at the end of a number; none is zero. -/
def exponent? : List Char → Option Int
  | [] => some 0
  | mark :: rest =>
    let (negative, digits) := sign rest
    if isExponentMark mark then
      (grouped? Char.isDigit digits).map fun digits => signed negative (number 10 digits)
    else none

/-- A number with a point or an exponent. One above all doubles is refused. -/
def decimal? (word : List Char) : Option Binary64 := do
  let (negative, unsigned) := sign word
  let isWhole (c : Char) : Bool := c != '.' && !isExponentMark c
  let whole ← wholeDigits? (unsigned.takeWhile isWhole)
  let rest := unsigned.dropWhile isWhole
  let (fraction, rest') ← fraction? rest
  let exponent ← exponent? rest'
  let x := Binary64.ofDecimal negative (number 10 (whole ++ fraction)) (exponent - fraction.length)
  if rest.isEmpty ∨ x = .make false Binary64.infinityMagnitude then none else some x

/-- A double, which may also be an infinity or not a number. -/
def double? (word : List Char) : Option Binary64 :=
  let (negative, unsigned) := sign word
  if unsigned = "inf".toList then some (.make negative Binary64.infinityMagnitude)
  else if unsigned = "nan".toList then some (if negative then .invalid else .nan)
  else decimal? word

/-! ## Dates and times -/

/-- Take a date. -/
def date? (cs : List Char) : Option (List Char) := do
  let (year, cs) ← Instant.digits? 4 cs
  let (month, cs) ← Instant.digits? 2 (← Instant.expect? '-' cs)
  let (day, cs) ← Instant.digits? 2 (← Instant.expect? '-' cs)
  if Instant.isDate ⟨year, month, day⟩ then some cs else none

/-- Take a time of day; a minute may have a leap second. -/
def time? (cs : List Char) : Option (List Char) := do
  let (hour, cs) ← Instant.digits? 2 cs
  let (minute, cs) ← Instant.digits? 2 (← Instant.expect? ':' cs)
  let (second, cs) ← Instant.digits? 2 (← Instant.expect? ':' cs)
  let rest := match cs with
    | '.' :: digits => if digits.head?.any Char.isDigit then digits.dropWhile Char.isDigit else cs
    | _ => cs
  if hour < 24 ∧ minute < 60 ∧ second ≤ 60 then some rest else none

/-- Whether a word is an offset from universal time. -/
def isOffset : List Char → Bool
  | ['Z'] => true
  | ['z'] => true
  | sign :: rest =>
    let read : Option Bool := do
      let (hour, rest) ← Instant.digits? 2 rest
      let (minute, rest) ← Instant.digits? 2 (← Instant.expect? ':' rest)
      some (rest.isEmpty && decide (hour < 24) && decide (minute < 60))
    (sign == '+' || sign == '-') && read.getD false
  | [] => false

def isDate (word : List Char) : Bool := date? word == some []

/-- Whether a word is a time of day, perhaps with an offset. -/
def isTime (word : List Char) : Bool := (time? word).any fun rest => rest.isEmpty || isOffset rest

/-- Whether a word is a date, a time of day, or both. -/
def isDateTime (word : List Char) : Bool :=
  time? word == some [] ||
    match date? word with
    | some [] => true
    | some (mark :: time) => (mark == 'T' || mark == 't') && isTime time
    | none => false

/-! ## Words -/

def isWordChar (c : Char) : Bool :=
  c.isAlphanum || c == '+' || c == '-' || c == '_' || c == '.' || c == ':'

/-- What a word stands for. -/
def ofWord? (word : List Char) : Option Node :=
  if word = "true".toList then some (.boolean true)
  else if word = "false".toList then some (.boolean false)
  else match integer? word with
    | some i => some (.integer i)
    | none => match double? word with
      | some x => some (.double x)
      | none => if isDateTime word then some (.dateTime (String.ofList word)) else none

/-- A value that is written as a word. -/
def readWord (cs : List Char) : Option (Node × List Char) :=
  let word := cs.takeWhile isWordChar
  let rest := cs.dropWhile isWordChar
  let time := match rest with
    | ' ' :: more => if isDate word then more.takeWhile isWordChar else []
    | _ => []
  if time.isEmpty then (ofWord? word).map fun node => (node, rest)
  else if isTime time then
    some (.dateTime (String.ofList (word ++ ' ' :: time)), rest.drop (time.length + 1))
  else none

end RuleNet.Toml
