import TokenAudit.Decimal.Shortest
import TokenAudit.Json.Text

/-! Printing JSON documents, one item or field a line, indented by two blanks a level. -/

namespace TokenAudit

namespace JsonNumber

def print : JsonNumber → List Char
  | natural n => (Nat.repr n).toList
  | negative n => '-' :: (Nat.repr n).toList
  | float x => (Decimal.ofFloat x).toList
  | tooLarge => []

end JsonNumber

namespace JsonString

def print : JsonString → List Char
  | text s => quote s.toList
  | unpaired _ => quote []

end JsonString

namespace Json

def newLine (depth : Nat) : List Char := '\n' :: List.replicate (2 * depth) ' '

mutual

/-- The text of a value whose first character stands at the given depth. -/
def pretty (depth : Nat) : Json → List Char
  | null => "null".toList
  | bool true => "true".toList
  | bool false => "false".toList
  | number n => n.print
  | string s => s.print
  | array [] _ => ['[', ']']
  | array (j :: js) _ =>
    '[' :: (newLine (depth + 1) ++ pretty (depth + 1) j ++ prettyItems (depth + 1) js ++
      newLine depth ++ [']'])
  | object [] _ => ['\x7b', '\x7d']
  | object ((k, v) :: more) _ =>
    '\x7b' :: (newLine (depth + 1) ++ k.print ++ ':' :: ' ' :: pretty (depth + 1) v ++
      prettyFields (depth + 1) more ++ newLine depth ++ ['\x7d'])
  | keyless _ | broken .. => []

def prettyItems (depth : Nat) : List Json → List Char
  | [] => []
  | j :: js => ',' :: (newLine depth ++ pretty depth j ++ prettyItems depth js)

def prettyFields (depth : Nat) : List (JsonString × Json) → List Char
  | [] => []
  | (k, v) :: more =>
    ',' :: (newLine depth ++ k.print ++ ':' :: ' ' :: pretty depth v ++ prettyFields depth more)

end

/-- The text of a document. -/
def print (j : Json) : String := String.ofList (pretty 0 j)

end Json

end TokenAudit
