/-! Blank characters: the `White_Space` class of Unicode, and trimming by it. -/

namespace TokenAudit.Text

/-- A character of the Unicode class `White_Space`. -/
def isBlank (c : Char) : Bool :=
  let n := c.toNat
  (9 ≤ n && n ≤ 13) || n == 0x20 || n == 0x85 || n == 0xA0 || n == 0x1680 ||
    (0x2000 ≤ n && n ≤ 0x200A) || n == 0x2028 || n == 0x2029 || n == 0x202F ||
    n == 0x205F || n == 0x3000

def trimStart (cs : List Char) : List Char := cs.dropWhile isBlank

def trimEnd (cs : List Char) : List Char := (cs.reverse.dropWhile isBlank).reverse

/-- Leading and trailing blanks removed. -/
def trim (cs : List Char) : List Char := trimEnd (trimStart cs)

end TokenAudit.Text
