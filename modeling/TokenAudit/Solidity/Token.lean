import TokenAudit.Solidity.Name

/-!
Tokens of a source text. A token keeps the blanks and comments in front of it, so that the text
of any run of tokens can be read back exactly as it was written.
-/

namespace TokenAudit.Solidity

inductive TokenKind
  | word
  | number
  | quoted
  | mark
  /-- A character that no token begins with, or a string that is not closed on its line. -/
  | stray
  deriving DecidableEq

structure Token where
  before : List Char
  text : List Char
  kind : TokenKind
  /-- The number of line feeds in front of the token. -/
  row : Nat

namespace Token

def is (t : Token) (text : String) : Bool := t.text == text.toList

def isWord (t : Token) : Bool := t.kind == .word

end Token

/-- The text from the first token's start to the last token's end. -/
def spelling : List Token → List Char
  | [] => []
  | t :: ts => t.text ++ ts.flatMap fun u => u.before ++ u.text

def lineFeeds (cs : List Char) : Nat := cs.count '\n'

/-- The row in which the last token ends. -/
def lastRow (ts : List Token) : Nat :=
  match ts.getLast? with
  | some t => t.row + lineFeeds t.text
  | none => 0

/-- The blanks of the language; a byte order mark and the invisible joiners count. -/
def isSpace (c : Char) : Bool :=
  c == ' ' || ('\t' ≤ c && c ≤ '\r') || c == '\u00A0' || c == '\u200B' || c == '\u2060' ||
    c == '\uFEFF'

/-- The rest of a block comment with its end, what follows, and whether the end was found. -/
def blockComment : List Char → List Char × List Char × Bool
  | [] => ([], [], false)
  | '*' :: '/' :: r => (['*', '/'], r, true)
  | c :: r =>
    let (body, rest, closed) := blockComment r
    (c :: body, rest, closed)

def isLineEnd (c : Char) : Bool := c == '\n' || c == '\r'

theorem length_dropWhile_le {α : Type} (p : α → Bool) (l : List α) :
    (l.dropWhile p).length ≤ l.length := (List.dropWhile_sublist p).length_le

theorem length_blockComment_le (cs : List Char) : (blockComment cs).2.1.length ≤ cs.length := by
  fun_induction blockComment cs <;> simp_all <;> omega

/-- The blanks and comments at the start, and the text after them. The flag says whether every
block comment was closed. -/
def gap (cs : List Char) : List Char × List Char × Bool :=
  match cs with
  | '/' :: '/' :: r =>
    let (between, rest, closed) := gap (r.dropWhile (!isLineEnd ·))
    ('/' :: '/' :: (r.takeWhile (!isLineEnd ·) ++ between), rest, closed)
  | '/' :: '*' :: r =>
    let comment := blockComment r
    let (between, rest, closed) := gap comment.2.1
    ('/' :: '*' :: (comment.1 ++ between), rest, comment.2.2 && closed)
  | c :: r =>
    if isSpace c then
      let (between, rest, closed) := gap r
      (c :: between, rest, closed)
    else ([], c :: r, true)
  | [] => ([], [], true)
termination_by cs.length
decreasing_by
  · have := length_dropWhile_le (!isLineEnd ·) r
    simp; omega
  · have := length_blockComment_le r
    simp; omega
  · simp

theorem length_gap_le (cs : List Char) : (gap cs).2.1.length ≤ cs.length := by
  fun_induction gap cs with
  | case1 r between rest closed h ih =>
    have := length_dropWhile_le (!isLineEnd ·) r
    simp_all; omega
  | case2 r comment between rest closed h ih =>
    have := length_blockComment_le r
    simp_all [comment]; omega
  | case3 c r _ _ hc between rest closed h ih => simp_all; omega
  | case4 => simp
  | case5 => simp

/-- The rest of a number: digits, letters, and a point that a digit follows. -/
def numberTail : List Char → List Char × List Char
  | '.' :: d :: r =>
    if d.isDigit then
      let (tail, rest) := numberTail r
      ('.' :: d :: tail, rest)
    else ([], '.' :: d :: r)
  | c :: r =>
    if isNameChar c then
      let (tail, rest) := numberTail r
      (c :: tail, rest)
    else ([], c :: r)
  | [] => ([], [])

/-- The rest of a string with its closing quote, what follows, and whether it was closed. -/
def quotedTail (quote : Char) : List Char → List Char × List Char × Bool
  | [] => ([], [], false)
  | '\\' :: c :: r =>
    let (tail, rest, closed) := quotedTail quote r
    ('\\' :: c :: tail, rest, closed)
  | c :: r =>
    if c == quote then ([c], r, true)
    else if c == '\n' then ([], c :: r, false)
    else
      let (tail, rest, closed) := quotedTail quote r
      (c :: tail, rest, closed)

/-- The operators and separators of more than one character, longest first. -/
def longMarks : List String :=
  [">>>=", ">>>", "<<=", ">>=", "=>", "==", "!=", "<=", ">=", "&&", "||", "<<", ">>", "**", "++",
    "--", "+=", "-=", "*=", "/=", "%=", "|=", "&=", "^=", "->", ":="]

def shortMarks : List Char := "()[]\x7b\x7d.,;:?=<>!+-*/%&|^~".toList

/-- The kind, the further characters and the rest, for a token that begins with `c`. -/
def lexeme (c : Char) (r : List Char) : TokenKind × List Char × List Char :=
  if c.isDigit || (c == '.' && (r.head?.any Char.isDigit)) then
    let (tail, rest) := numberTail r
    (.number, tail, rest)
  else if isNameChar c then (.word, r.takeWhile isNameChar, r.dropWhile isNameChar)
  else if c == '"' || c == '\'' then
    let (tail, rest, closed) := quotedTail c r
    (if closed then .quoted else .stray, tail, rest)
  else
    match longMarks.find? fun m => m.toList.isPrefixOf (c :: r) with
    | some m => (.mark, r.take (m.length - 1), r.drop (m.length - 1))
    | none => (if shortMarks.contains c then .mark else .stray, [], r)

theorem length_numberTail_le (cs : List Char) : (numberTail cs).2.length ≤ cs.length := by
  fun_induction numberTail cs <;> simp_all <;> omega

theorem length_quotedTail_le (quote : Char) (cs : List Char) :
    (quotedTail quote cs).2.1.length ≤ cs.length := by
  fun_induction quotedTail quote cs <;> simp_all <;> omega

theorem length_lexeme_le (c : Char) (r : List Char) : (lexeme c r).2.2.length ≤ r.length := by
  unfold lexeme
  split
  · exact length_numberTail_le r
  split
  · exact length_dropWhile_le isNameChar r
  split
  · exact length_quotedTail_le c r
  split <;> simp

/-- The tokens of a source, and whether all of it could be read as tokens. -/
structure Tokens where
  list : List Token
  sound : Bool

/-- Reads the tokens of `cs`, which stands after `row` line feeds. -/
def Tokens.scanFrom (row : Nat) (cs : List Char) : Tokens :=
  match _h : gap cs with
  | (_, [], closed) => ⟨[], closed⟩
  | (before, c :: r, closed) =>
    let kind := (lexeme c r).1
    let text := c :: (lexeme c r).2.1
    let start := row + lineFeeds before
    let more := Tokens.scanFrom (start + lineFeeds text) (lexeme c r).2.2
    ⟨{ before, text, kind, row := start } :: more.list, closed && kind != .stray && more.sound⟩
termination_by cs.length
decreasing_by
  have h₁ := length_lexeme_le c r
  have h₂ := length_gap_le cs
  rw [_h] at h₂
  simp at h₂
  omega

def Tokens.scan (source : List Char) : Tokens := Tokens.scanFrom 0 source

end TokenAudit.Solidity
