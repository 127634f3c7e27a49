/-! Text in quotes for a message, with everything that does not show escaped. -/

namespace TokenAudit.Text

/-- Characters that leave no mark: controls, joiners, direction marks and private characters. -/
def isInvisible (c : Char) : Bool :=
  let n := c.toNat
  n < 0x20 || (0x7F ≤ n && n < 0xA0) || n == 0xAD || (0x300 ≤ n && n < 0x370) ||
    (0x200B ≤ n && n ≤ 0x200F) || (0x2028 ≤ n && n ≤ 0x202E) || (0x2060 ≤ n && n ≤ 0x206F) ||
    (0xE000 ≤ n && n ≤ 0xF8FF) || (0xFE00 ≤ n && n ≤ 0xFE0F) || n == 0xFEFF ||
    (0xFFF0 ≤ n && n ≤ 0xFFFB) || (0xE0000 ≤ n && n ≤ 0xE0FFF) || 0xF0000 ≤ n

def showChar (c : Char) : List Char :=
  match c with
  | '"' => ['\\', '"']
  | '\\' => ['\\', '\\']
  | '\n' => ['\\', 'n']
  | '\r' => ['\\', 'r']
  | '\t' => ['\\', 't']
  | '\x00' => ['\\', '0']
  | c =>
    if isInvisible c then "\\u\x7b".toList ++ Nat.toDigits 16 c.toNat ++ ['\x7d'] else [c]

/-- The text in double quotes. -/
def showQuoted (cs : List Char) : List Char := '"' :: (cs.flatMap showChar ++ ['"'])

end TokenAudit.Text
