/-
  The text of a value, as messages and logs show it: strings without quotes, arrays in brackets,
  objects in braces with their names.
-/
import RuleNet.Number.Shortest
import RuleNet.Value.Basic

namespace RuleNet.Value

mutual

/-- The text of a value. -/
def toText : Value → String
  | null => "null"
  | boolean b => if b then "true" else "false"
  | integer i => toString i.toInt
  | double x => x.toText
  | text s => s
  | date t => t.toText
  | array items => "[" ++ ", ".intercalate (itemTexts items) ++ "]"
  | object entries => "\x7b" ++ ", ".intercalate (entryTexts entries) ++ "\x7d"

def itemTexts : List Value → List String
  | [] => []
  | x :: xs => toText x :: itemTexts xs

def entryTexts : List (String × Value) → List String
  | [] => []
  | (k, x) :: xs => (k ++ ": " ++ toText x) :: entryTexts xs

end

end RuleNet.Value
