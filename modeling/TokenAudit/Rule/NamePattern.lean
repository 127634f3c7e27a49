import TokenAudit.Text.Row

/-! Patterns on names, in which a star stands for any run of characters on one line. -/

namespace TokenAudit.NamePattern

open Text.Row

def row (name : List Char) : List Char → List Bool
  | [] => atEnd name
  | '*' :: p => star (· != '\n') name (row name p)
  | c :: p => one (· == c) name (row name p)

/-- The pattern matches all of the name. -/
def isMatch (pattern name : String) : Bool := (row name.toList pattern.toList).headD false

end TokenAudit.NamePattern
