/-! Lines of a text: a line ends at a line feed, which a carriage return may precede. -/

namespace TokenAudit.Text

/-- The lines without their ends. A text that ends with a line feed has no empty last line,
and a carriage return that no line feed follows belongs to its line. -/
def lines : List Char → List (List Char)
  | [] => []
  | '\n' :: r => [] :: lines r
  | '\r' :: '\n' :: r => [] :: lines r
  | c :: r =>
    match lines r with
    | [] => [[c]]
    | l :: ls => (c :: l) :: ls

end TokenAudit.Text
