/-!
Matching a text against a pattern from the pattern's end. A row says for each position of the
text, its end included, whether what is left of the pattern matches what follows.
-/

namespace TokenAudit.Text.Row

variable {α : Type}

/-- Nothing is left of the pattern. -/
def atEnd : List α → List Bool
  | [] => [true]
  | _ :: text => false :: atEnd text

/-- No text matches. -/
def nowhere : List α → List Bool
  | [] => [false]
  | _ :: text => false :: nowhere text

/-- One character that `p` accepts, then the row. -/
def one (p : α → Bool) : List α → List Bool → List Bool
  | c :: text, _ :: row => (p c && row.headD false) :: one p text row
  | _, _ => [false]

/-- Any number of characters that `p` accepts, then the row. -/
def star (p : α → Bool) : List α → List Bool → List Bool
  | c :: text, m :: row =>
    let rest := star p text row
    (m || (p c && rest.headD false)) :: rest
  | _, row => row

def either (a b : List Bool) : List Bool := List.zipWith (· || ·) a b

end TokenAudit.Text.Row
