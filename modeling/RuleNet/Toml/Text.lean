/-
  The smallest parts of a TOML text: blanks, comments, ends of lines, and strings.

  A reader takes something from the front of a text and leaves the rest.

  * `skipSpace` stays on the line; `skipGaps` passes over comments and ends of lines, too.
  * `readString`: a string in either quotes, on one line or, in three quotes, on many.
-/
import RuleNet.Data.Entries

namespace RuleNet.Toml

/-- Takes something from the front of a text. -/
abbrev Reader (α : Type) := List Char → Option (α × List Char)

/-! ## Blanks -/

def isSpace (c : Char) : Bool := c == ' ' || c == '\t'

/-- What may stand in comments and strings: everything but control characters, of which the tab is
    allowed. -/
def isPlain (c : Char) : Bool := c == '\t' || (' ' ≤ c && c != '\x7f')

/-- Pass over blanks within the line. -/
def skipSpace (cs : List Char) : List Char := cs.dropWhile isSpace

/-- Take the end of a line. -/
def newline? : List Char → Option (List Char)
  | '\n' :: rest => some rest
  | '\r' :: '\n' :: rest => some rest
  | _ => none

mutual

/-- Pass over blanks, ends of lines and comments. -/
def skipGaps : List Char → List Char
  | ' ' :: rest => skipGaps rest
  | '\t' :: rest => skipGaps rest
  | '\n' :: rest => skipGaps rest
  | '\r' :: '\n' :: rest => skipGaps rest
  | '#' :: rest => skipComment rest
  | cs => cs

/-- Pass over a comment and what follows its line; a comment stops at a control character. -/
def skipComment : List Char → List Char
  | [] => []
  | '\n' :: rest => skipGaps rest
  | '\r' :: '\n' :: rest => skipGaps rest
  | c :: rest => if isPlain c then skipComment rest else c :: rest

end

/-- The rest of a text after a line on which nothing but a comment is left. -/
def endLine (cs : List Char) : Option (List Char) :=
  let rest := match skipSpace cs with
    | '#' :: comment => comment.dropWhile isPlain
    | rest => rest
  if rest.isEmpty then some [] else newline? rest

/-! ## Strings -/

def hexDigit? (c : Char) : Option Nat :=
  if c.isDigit then some (c.toNat - '0'.toNat)
  else if 'a' ≤ c ∧ c ≤ 'f' then some (c.toNat - 'a'.toNat + 10)
  else if 'A' ≤ c ∧ c ≤ 'F' then some (c.toNat - 'A'.toNat + 10)
  else none

/-- The character whose code is written in `width` hexadecimal digits. -/
def codePoint? (width : Nat) (cs : List Char) : Option Char := do
  let digits ← (cs.take width).mapM hexDigit?
  let code := digits.foldl (fun n d => 16 * n + d) 0
  if digits.length = width ∧ code.isValidChar then some (Char.ofNat code) else none

/-- The character that an escape stands for, and the length of the escape after its backslash. -/
def escape? : List Char → Option (Char × Nat)
  | 'b' :: _ => some ('\x08', 1)
  | 't' :: _ => some ('\t', 1)
  | 'n' :: _ => some ('\n', 1)
  | 'f' :: _ => some ('\x0c', 1)
  | 'r' :: _ => some ('\r', 1)
  | '"' :: _ => some ('"', 1)
  | '\\' :: _ => some ('\\', 1)
  | 'u' :: rest => (codePoint? 4 rest).map (·, 5)
  | 'U' :: rest => (codePoint? 8 rest).map (·, 9)
  | _ => none

/-- Take three quotes. -/
def threeQuotes? (quote : Char) : List Char → Option (List Char)
  | a :: b :: c :: rest => if a = quote ∧ b = quote ∧ c = quote then some rest else none
  | _ => none

/-- Up to two quotes right before the closing ones belong to the string. -/
def lastQuotes (quote : Char) (cs : List Char) : List Char × List Char :=
  let quotes := (cs.take 2).takeWhile (· == quote)
  (quotes, cs.drop quotes.length)

/-- Pass over blanks and ends of lines. -/
def skipLines : List Char → List Char
  | ' ' :: rest => skipLines rest
  | '\t' :: rest => skipLines rest
  | '\n' :: rest => skipLines rest
  | '\r' :: '\n' :: rest => skipLines rest
  | cs => cs

/-- The rest of a text after a backslash that ends its line, and the blanks at the start of the next
    ones. -/
def foldedLine? (cs : List Char) : Option (List Char) := (newline? (skipSpace cs)).map skipLines

/-- One step within a string. -/
inductive StringStep where
  /-- The string ends, perhaps with some more characters. -/
  | close (last rest : List Char)
  /-- Characters of the string. -/
  | take (chars rest : List Char)
  deriving DecidableEq

/-- The next step within a string. -/
def stringStep? (quote : Char) (long : Bool) (c : Char) (rest : List Char) : Option StringStep :=
  if c = quote then
    if !long then some (.close [] rest)
    else match threeQuotes? quote (c :: rest) with
      | some rest => let (last, rest) := lastQuotes quote rest; some (.close last rest)
      | none => some (.take [c] rest)
  else if c = '\\' ∧ quote = '"' then
    match if long then foldedLine? rest else none with
    | some rest => some (.take [] rest)
    | none => (escape? rest).map fun (escaped, length) => .take [escaped] (rest.drop length)
  else if isPlain c then some (.take [c] rest)
  else if long then (newline? (c :: rest)).map (.take ['\n'])
  else none

/-- The characters of a string after its opening quotes. -/
def readBody (quote : Char) (long : Bool) : List Char → Option (List Char × List Char)
  | [] => none
  | c :: cs => match stringStep? quote long c cs with
    | none => none
    | some (.close last rest) => some (last, rest)
    | some (.take chars rest) =>
      if rest.length ≤ cs.length then
        (readBody quote long rest).map fun (body, rest) => (chars ++ body, rest)
      else none
termination_by cs => cs.length
decreasing_by exact Nat.lt_succ_of_le (by assumption)

/-- A string on one line. -/
def readLineString (cs : List Char) : Option (String × List Char) := match cs with
  | [] => none
  | quote :: rest =>
    if quote = '"' ∨ quote = '\'' then
      (readBody quote false rest).map fun (body, rest) => (String.ofList body, rest)
    else none

/-- A string. Three quotes open one that may have many lines; the end of a line right after them
    does not belong to it. -/
def readString (cs : List Char) : Option (String × List Char) := match cs with
  | [] => none
  | quote :: _ => match threeQuotes? quote cs with
    | some rest =>
      if quote = '"' ∨ quote = '\'' then
        (readBody quote true ((newline? rest).getD rest)).map fun (body, rest) =>
          (String.ofList body, rest)
      else none
    | none => readLineString cs

end RuleNet.Toml
