/-
  Literals: the written form of a value that names its kind, as in `Integer(5)` or
  `Array([Boolean(true), Null])`. Values of one form are identical, up to the bits of a double that
  is not a number, and the order of forms is the order in which equal tests are preferred.

  * `quoted`: a text between quotes, in which whatever could be mistaken or overlooked is escaped.
  * `Value.literal`: the literal of a value.
-/
import RuleNet.Number.Shortest
import RuleNet.Text.Visible
import RuleNet.Value.Basic

namespace RuleNet

/-- How a character is written between quotes. -/
def quotedChar (c : Char) : List Char :=
  if c = '"' ∨ c = '\\' then ['\\', c]
  else if c = '\t' then ['\\', 't']
  else if c = '\n' then ['\\', 'n']
  else if c = '\r' then ['\\', 'r']
  else if c.toNat = 0 then ['\\', '0']
  else if isVisible c then [c]
  else ['\\', 'u', '\x7b'] ++ Nat.toDigits 16 c.toNat ++ ['\x7d']

/-- A text in quotes. -/
def quoted (s : String) : String := String.ofList ('"' :: s.toList.flatMap quotedChar ++ ['"'])

namespace Value

mutual

/-- The literal of a value. -/
def literal : Value → String
  | null => "Null"
  | boolean b => "Boolean(" ++ (if b then "true" else "false") ++ ")"
  | integer i => "Integer(" ++ toString i.toInt ++ ")"
  | double x => "Float(" ++ x.literal ++ ")"
  | text s => "String(" ++ quoted s ++ ")"
  | date t => "Date(" ++ t.rfc3339 "Z" ++ ")"
  | array items => "Array([" ++ ", ".intercalate (itemLiterals items) ++ "])"
  | object entries => "Object(\x7b" ++ ", ".intercalate (entryLiterals entries) ++ "\x7d)"

def itemLiterals : List Value → List String
  | [] => []
  | x :: xs => literal x :: itemLiterals xs

def entryLiterals : List (String × Value) → List String
  | [] => []
  | (k, x) :: xs => (quoted k ++ ": " ++ literal x) :: entryLiterals xs

end

end Value

end RuleNet
