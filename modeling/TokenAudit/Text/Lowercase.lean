import TokenAudit.Text.CaseTable

/-! Lower case by the rules of Unicode. -/

namespace TokenAudit.Text

def lowerChar (c : Char) : List Char :=
  if c.toNat < 0x80 then [c.toLower]
  else if c == 'İ' then ['i', '\u0307']
  else
    match lowerRuns.find? (·.holds c.toNat) with
    | some r => [Char.ofNat (c.toNat + r.shift).toNat]
    | none => [c]

/-- The nearest character that is not passed over is a letter with case. -/
def meetsLetter (cs : List Char) : Bool :=
  (cs.dropWhile isCaseIgnorable).head?.any isCased

/-- `earlier` holds the characters in front, last first. A sigma at the end of a word has a form
of its own. -/
def lowerFrom (earlier : List Char) : List Char → List Char
  | [] => []
  | c :: r =>
    let form :=
      if c == 'Σ' then [if meetsLetter earlier && !meetsLetter r then 'ς' else 'σ']
      else lowerChar c
    form ++ lowerFrom (c :: earlier) r

/-- A text in lower case. -/
def lower (s : String) : String := String.ofList (lowerFrom [] s.toList)

end TokenAudit.Text
