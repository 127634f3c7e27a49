import TokenAudit.Text.Blank
import TokenAudit.Text.Search

/-! Simple names: the identifier that a reference such as `a.b.Name(x)` ends in. -/

namespace TokenAudit.Solidity

/-- A character of an identifier. -/
def isNameChar (c : Char) : Bool := c.isAlphanum || c == '_' || c == '$'

/-- A non-empty ASCII identifier that does not start with a digit. -/
def isName : List Char → Bool
  | [] => false
  | c :: r => !c.isDigit && (c :: r).all isNameChar

/-- The text before the first argument list or option block. -/
def beforeArguments (text : List Char) : List Char := text.takeWhile fun c => c != '(' && c != '\x7b'

/-- The last dotted part of what stands before the arguments, if that is an identifier. -/
def simpleName? (text : List Char) : Option (List Char) :=
  let part := Text.trim (Text.afterLast '.' (Text.trim (beforeArguments text)))
  if isName part then some part else none

end TokenAudit.Solidity
