/-! Searching a text for another and cutting it there. -/

namespace TokenAudit.Text

variable {α : Type} [BEq α]

/-- `pattern` stands somewhere in the text. -/
def hasInfix (pattern : List α) : List α → Bool
  | [] => pattern.isEmpty
  | c :: r => pattern.isPrefixOf (c :: r) || hasInfix pattern r

/-- What is left of a text after `start`, if the text begins with it. -/
def dropPrefix? (start text : List α) : Option (List α) :=
  if start.isPrefixOf text then some (text.drop start.length) else none

/-- The texts before and after the first `separator`. -/
def cut? (separator : List α) : List α → Option (List α × List α)
  | [] => if separator.isEmpty then some ([], []) else none
  | c :: r =>
    match dropPrefix? separator (c :: r) with
    | some after => some ([], after)
    | none => (cut? separator r).map fun (before, after) => (c :: before, after)

/-- The text after the last `separator`, or all of it. -/
def afterLast (separator : α) (text : List α) : List α :=
  (text.reverse.takeWhile (!· == separator)).reverse

/-- `pattern` stands somewhere in `text`. -/
def mentions (text pattern : String) : Bool := hasInfix pattern.toList text.toList

end TokenAudit.Text
