/-
  Instants: points of universal time, counted from the start of 1970, and their calendar text.

  * `Civil.ofDays`: the date of a day number in the Gregorian calendar, in both directions of time.
  * `Instant.rfc3339`: the text with as many fraction digits as needed, in groups of three.
  * `Instant.toText`: the text shown to people, always with milliseconds.
  * `Instant.ofRfc3339?`: reads either form back.
-/
import RuleNet.Number.Power

namespace RuleNet

/-! ## Calendar -/

/-- A date of the Gregorian calendar, extended to all years. -/
structure Civil where
  year : Int
  month : Nat
  day : Nat
  deriving DecidableEq

namespace Civil

/-- The date `days` after the first of January 1970. Years are counted from March, so that the leap
    day is the last of its year, within eras of 400 years. -/
def ofDays (days : Int) : Civil :=
  let shifted := days + 719468
  let era := Int.fdiv shifted 146097
  let dayOfEra := (Int.fmod shifted 146097).toNat
  let yearOfEra := (dayOfEra - dayOfEra / 1460 + dayOfEra / 36524 - dayOfEra / 146096) / 365
  let dayOfYear := dayOfEra - (365 * yearOfEra + yearOfEra / 4 - yearOfEra / 100)
  let monthFromMarch := (5 * dayOfYear + 2) / 153
  let day := dayOfYear - (153 * monthFromMarch + 2) / 5 + 1
  let month := if monthFromMarch < 10 then monthFromMarch + 3 else monthFromMarch - 9
  ⟨era * 400 + yearOfEra + (if month ≤ 2 then 1 else 0), month, day⟩

/-- The number of days from the first of January 1970 to a date. -/
def toDays (date : Civil) : Int :=
  let year := if date.month ≤ 2 then date.year - 1 else date.year
  let era := Int.fdiv year 400
  let yearOfEra := (Int.fmod year 400).toNat
  let monthFromMarch := if 2 < date.month then date.month - 3 else date.month + 9
  let dayOfYear := (153 * monthFromMarch + 2) / 5 + date.day - 1
  let dayOfEra := yearOfEra * 365 + yearOfEra / 4 - yearOfEra / 100 + dayOfYear
  era * 146097 + dayOfEra - 719468

end Civil

/-! ## Instants -/

/-- Seconds since the start of 1970, and nanoseconds after them. -/
structure Instant where
  secs : Int
  nanos : Nat
  deriving DecidableEq, Inhabited

namespace Instant

/-- Earlier instants first. -/
def compare (a b : Instant) : Ordering :=
  (Ord.compare a.secs b.secs).then (Ord.compare a.nanos b.nanos)

/-- Whole milliseconds since the start of 1970, rounded down. -/
def epochMillis (t : Instant) : Int := t.secs * 1000 + (t.nanos / 1000000 : Nat)

/-- A number in at least `width` digits. -/
def padded (width n : Nat) : String :=
  let digits := Nat.toDigits 10 n
  String.ofList (List.replicate (width - digits.length) '0' ++ digits)

/-- A year in at least four digits, with a sign outside 0 to 9999. -/
def yearText (year : Int) : String :=
  if year < 0 then "-" ++ padded 4 year.natAbs
  else if 9999 < year then "+" ++ padded 4 year.natAbs
  else padded 4 year.natAbs

/-- Date and time of day up to the seconds. -/
def dateTimeText (t : Instant) : String :=
  let date := Civil.ofDays (Int.fdiv t.secs 86400)
  let second := (Int.fmod t.secs 86400).toNat
  yearText date.year ++ "-" ++ padded 2 date.month ++ "-" ++ padded 2 date.day ++ "T" ++
    padded 2 (second / 3600) ++ ":" ++ padded 2 (second / 60 % 60) ++ ":" ++ padded 2 (second % 60)

/-- The fraction of a second in 0, 3, 6 or 9 digits, whichever is the first to be exact. -/
def fractionText (nanos : Nat) : String :=
  if nanos = 0 then ""
  else if nanos % 1000000 = 0 then "." ++ padded 3 (nanos / 1000000)
  else if nanos % 1000 = 0 then "." ++ padded 6 (nanos / 1000)
  else "." ++ padded 9 nanos

/-- The RFC 3339 text, ending in the given name of the zero offset. -/
def rfc3339 (t : Instant) (zone : String) : String := t.dateTimeText ++ fractionText t.nanos ++ zone

/-- The text shown to people. -/
def toText (t : Instant) : String := t.dateTimeText ++ "." ++ padded 3 (t.nanos / 1000000) ++ "Z"

/-! ## Reading -/

/-- Exactly `width` digits from the front. -/
def digits? (width : Nat) (cs : List Char) : Option (Nat × List Char) :=
  let front := cs.take width
  if front.length = width ∧ front.all Char.isDigit then
    some (front.foldl (fun n c => 10 * n + (c.toNat - '0'.toNat)) 0, cs.drop width)
  else none

/-- One given character from the front. -/
def expect? (c : Char) : List Char → Option (List Char)
  | d :: rest => if c = d then some rest else none
  | [] => none

/-- A year: four digits, or a sign and four or more. -/
def year? (cs : List Char) : Option (Int × List Char) :=
  let signed (sign : Int) (cs : List Char) : Option (Int × List Char) :=
    let width := (cs.takeWhile Char.isDigit).length
    if 4 ≤ width then (digits? width cs).map fun (n, rest) => (sign * n, rest) else none
  match cs with
  | '+' :: rest => signed 1 rest
  | '-' :: rest => signed (-1) rest
  | _ => (digits? 4 cs).map fun (n, rest) => ((n : Int), rest)

/-- A fraction of at most nine digits, in nanoseconds; none is zero. -/
def fraction? : List Char → Option (Nat × List Char)
  | '.' :: rest =>
    let width := (rest.takeWhile Char.isDigit).length
    if 1 ≤ width ∧ width ≤ 9 then
      (digits? width rest).map fun (n, rest) => (n * tenTo (9 - width), rest)
    else none
  | cs => some (0, cs)

/-- The offset from universal time in seconds, at the end of the text. -/
def offset? : List Char → Option Int
  | ['Z'] => some 0
  | sign :: rest => do
    let factor ← if sign = '+' then some 1 else if sign = '-' then some (-1) else none
    let (hours, rest) ← digits? 2 rest
    let rest ← expect? ':' rest
    let (minutes, rest) ← digits? 2 rest
    if rest.isEmpty ∧ minutes < 60 then some (factor * ((hours * 60 + minutes) * 60 : Nat))
    else none
  | [] => none

/-- Whether a date exists. -/
def isDate (date : Civil) : Bool :=
  1 ≤ date.month && date.month ≤ 12 && 1 ≤ date.day && Civil.ofDays date.toDays == date

/-- The instant of an RFC 3339 text. -/
def ofRfc3339? (text : String) : Option Instant := do
  let (year, cs) ← year? text.toList
  let (month, cs) ← digits? 2 (← expect? '-' cs)
  let (day, cs) ← digits? 2 (← expect? '-' cs)
  let (hour, cs) ← digits? 2 (← expect? 'T' cs)
  let (minute, cs) ← digits? 2 (← expect? ':' cs)
  let (second, cs) ← digits? 2 (← expect? ':' cs)
  let (nanos, cs) ← fraction? cs
  let offset ← offset? cs
  let date : Civil := ⟨year, month, day⟩
  if isDate date ∧ hour < 24 ∧ minute < 60 ∧ second < 60 then
    some ⟨date.toDays * 86400 + ((hour * 60 + minute) * 60 + second : Nat) - offset, nanos⟩
  else none

end Instant

end RuleNet
