import TokenAudit.Text.Row
import TokenAudit.Text.Utf8

/-!
Glob patterns on paths. A pattern is read into tokens that match bytes, so a question mark stands
for one byte. Whether a star crosses separators depends on where the pattern comes from.
-/

namespace TokenAudit

inductive GlobToken
  | byte (b : UInt8)
  | any
  | many
  /-- `**/` at the start: any directories, or none. -/
  | leadingDirectories
  /-- `/**` at the end: anything inside. -/
  | trailingDirectories
  /-- `/**/`: any directories between two names, or none. -/
  | innerDirectories
  | oneOf (negated : Bool) (ranges : List (UInt8 × UInt8))
  | alternatives (branches : List (List GlobToken))

structure Glob where
  tokens : List GlobToken
  /-- `?` and `*` do not match a separator. -/
  keepsSeparators : Bool

inductive GlobError
  | unclosedClass
  | invalidRange (first last : Char)
  | unopenedAlternatives
  | unclosedAlternatives
  | danglingEscape
  deriving DecidableEq

namespace GlobToken

def ofChar (c : Char) : List GlobToken := (String.utf8EncodeChar c).map .byte

/-- The ranges of bytes that a range of characters names. A character of several bytes names each
of them, and only its neighbours across the dash form a range. -/
def byteRanges (first last : Char) : List (UInt8 × UInt8) :=
  let single (bs : List UInt8) := bs.map fun b => (b, b)
  if first = last then single (String.utf8EncodeChar first)
  else
    let low := String.utf8EncodeChar first
    let high := String.utf8EncodeChar last
    match low.getLast?, high with
    | some a, b :: more => single low.dropLast ++ [(a, b)] ++ single more
    | _, _ => []

def isByte (t : GlobToken) (p : UInt8 → Bool) : Bool :=
  match t with
  | .byte b => p b
  | _ => false

end GlobToken

open Text.Row

namespace Glob

/-- A group of alternatives that is still open: the finished branches, last first, and what stood
in front of the group. -/
structure OpenGroup where
  finished : List (List GlobToken)
  earlier : List GlobToken

/-- A pattern read so far; token lists are last first. -/
structure Reading where
  groups : List OpenGroup := []
  tokens : List GlobToken := []
  /-- The character read last. -/
  previous : Option Char := none

namespace Reading

def push (r : Reading) (ts : List GlobToken) : Reading :=
  { r with tokens := ts.reverse ++ r.tokens }

def literal (r : Reading) (c : Char) : Reading := r.push (GlobToken.ofChar c)

/-- What `**` becomes when it stands for directories on its own between separators. -/
def joinDirectories (r : Reading) (atEnd : Bool) : Reading :=
  match r.tokens with
  | .leadingDirectories :: _ => r
  | .trailingDirectories :: _ => r
  | _ :: earlier =>
    { r with
      tokens := (if atEnd then .trailingDirectories else .innerDirectories) :: earlier }
  | [] => r

end Reading

/-- A class of characters after its bracket and negation: its ranges, last first. -/
structure ClassReading where
  ranges : List (Char × Char) := []
  isFirst : Bool := true
  inRange : Bool := false

namespace ClassReading

def add (k : ClassReading) (c : Char) : Except GlobError ClassReading :=
  if k.inRange then
    match k.ranges with
    | (first, _) :: more =>
      if c < first then .error (.invalidRange first c)
      else .ok { ranges := (first, c) :: more, isFirst := false }
    | [] => .ok { isFirst := false }
  else .ok { ranges := (c, c) :: k.ranges, isFirst := false }

/-- The ranges of the class, and the text after it. -/
def read (k : ClassReading) : List Char → Except GlobError (List (Char × Char) × List Char)
  | [] => .error .unclosedClass
  | c :: r => do
    if c == ']' && !k.isFirst then
      let ranges := if k.inRange then ('-', '-') :: k.ranges else k.ranges
      pure (ranges.reverse, r)
    else if c == '-' && !k.isFirst && !k.inRange then
      ({ k with inRange := true } : ClassReading).read r
    else (← k.add c).read r

theorem length_read_le {cs : List Char} {k : ClassReading} {ranges : List (Char × Char)}
    {r : List Char} (h : k.read cs = .ok (ranges, r)) : r.length ≤ cs.length := by
  induction cs generalizing k with
  | nil => simp [read] at h
  | cons c cs ih =>
    rw [read] at h
    split at h
    · injection h with h
      injection h with _ h
      subst h
      simp
    · split at h
      · have := ih h
        simp
        omega
      · cases hk : k.add c with
        | error e => simp [hk, bind, Except.bind] at h
        | ok k' =>
          simp only [hk, bind, Except.bind] at h
          have := ih h
          simp
          omega

end ClassReading

def isNegation (c : Char) : Bool := c == '!' || c == '^'

/-- A class after its bracket: its token and the text after it. -/
def readClass (cs : List Char) : Except GlobError (GlobToken × List Char) := do
  let negated := cs.head?.any isNegation
  let (ranges, r) ← ({} : ClassReading).read (if negated then cs.tail else cs)
  pure (.oneOf negated (ranges.flatMap fun (a, b) => GlobToken.byteRanges a b), r)

theorem length_readClass_le {cs : List Char} {t : GlobToken} {r : List Char}
    (h : readClass cs = .ok (t, r)) : r.length ≤ cs.length := by
  unfold readClass at h
  cases hk : ({} : ClassReading).read (if cs.head?.any isNegation then cs.tail else cs) with
  | error e => simp [hk, bind, Except.bind] at h
  | ok p =>
    obtain ⟨ranges, rest⟩ := p
    simp only [hk, bind, Except.bind, pure, Except.pure, Except.ok.injEq, Prod.mk.injEq] at h
    have := ClassReading.length_read_le hk
    rw [← h.2]
    refine Nat.le_trans this ?_
    split <;> simp

/-- `**` after tokens, before `rest`. -/
def readDoubleStar (r : Reading) (rest : List Char) : Reading × List Char :=
  let stars := r.push [.many, .many]
  if r.tokens.isEmpty then
    match rest with
    | [] => (r.push [.leadingDirectories], [])
    | c :: more =>
      if c == '/' then ({ r.push [.leadingDirectories] with previous := some c }, more)
      else ({ stars with previous := some '*' }, rest)
  else if r.previous != some '/' &&
      (r.groups.isEmpty || (r.previous != some ',' && r.previous != some '\x7b')) then
    ({ stars with previous := some '*' }, rest)
  else
    match rest with
    | [] => (r.joinDirectories true, [])
    | c :: more =>
      if (c == ',' || c == '\x7d') && !r.groups.isEmpty then
        ({ r.joinDirectories true with previous := some '*' }, rest)
      else if c == '/' then ({ r.joinDirectories false with previous := some c }, more)
      else ({ stars with previous := some '*' }, rest)

theorem length_readDoubleStar_le (r : Reading) (rest : List Char) :
    (readDoubleStar r rest).2.length ≤ rest.length := by
  unfold readDoubleStar
  repeat' split
  all_goals simp

/-- What an opening bracket stands for in a pattern. -/
inductive BracketRule
  /-- A class, which must be closed. -/
  | opensClass
  /-- A class if one is closed after it; else it is plain, and so are all after it. -/
  | mayOpenClass
  | plain
  deriving DecidableEq

/-- Reads the rest of a pattern. -/
def readFrom (rule : BracketRule) (r : Reading) (cs : List Char) : Except GlobError Reading :=
  match cs with
  | [] => .ok r
  | '?' :: rest => readFrom rule { r.push [.any] with previous := some '?' } rest
  | '*' :: '*' :: rest =>
    readFrom rule (readDoubleStar r rest).1 (readDoubleStar r rest).2
  | '*' :: rest => readFrom rule { r.push [.many] with previous := some '*' } rest
  | '[' :: rest =>
    let asPlain := { r.literal '[' with previous := some '[' }
    if rule = .plain then readFrom rule asPlain rest
    else
      match _h : readClass rest with
      | .ok (t, after) => readFrom rule { r.push [t] with previous := some ']' } after
      | .error e =>
        if rule = .mayOpenClass && e = .unclosedClass then readFrom .plain asPlain rest
        else .error e
  | '\x7b' :: rest =>
    readFrom rule
      { groups := ⟨[], r.tokens⟩ :: r.groups, tokens := [], previous := some '\x7b' } rest
  | '\x7d' :: rest =>
    match r.groups with
    | [] => .error .unopenedAlternatives
    | g :: gs =>
      let branches := (r.tokens.reverse :: g.finished).reverse
      readFrom rule
        { groups := gs, tokens := .alternatives branches :: g.earlier, previous := some '\x7d' }
        rest
  | ',' :: rest =>
    match r.groups with
    | [] => readFrom rule { r.literal ',' with previous := some ',' } rest
    | g :: gs =>
      readFrom rule
        { groups := { g with finished := r.tokens.reverse :: g.finished } :: gs
          tokens := []
          previous := some ',' } rest
  | '\\' :: [] => .error .danglingEscape
  | '\\' :: c :: rest => readFrom rule { r.literal c with previous := some c } rest
  | c :: rest => readFrom rule { r.literal c with previous := some c } rest
termination_by cs.length
decreasing_by
  all_goals simp only [List.length_cons]
  · omega
  · have := length_readDoubleStar_le r rest
    omega
  · omega
  · omega
  · have := length_readClass_le ‹_›
    omega
  all_goals omega

/-- Reads a pattern. -/
def read (rule : BracketRule) (keepsSeparators : Bool) (pattern : List Char) :
    Except GlobError Glob := do
  let r ← readFrom rule {} pattern
  unless r.groups.isEmpty do throw .unclosedAlternatives
  pure { tokens := r.tokens.reverse, keepsSeparators }

def slash (b : UInt8) : Bool := b == 0x2F

def anything (_ : UInt8) : Bool := true

mutual

/-- Nothing stands in the branches of the token, however deep. Such a branch is no choice. -/
def isVoid : GlobToken → Bool
  | .alternatives branches => areVoid branches
  | _ => false

def isVoidList : List GlobToken → Bool
  | [] => true
  | t :: ts => isVoid t && isVoidList ts

def areVoid : List (List GlobToken) → Bool
  | [] => true
  | b :: bs => isVoidList b && areVoid bs

end

mutual

/-- The row of a token in front of a row. -/
def tokenRow (plain : UInt8 → Bool) (text : List UInt8) (row : List Bool) : GlobToken → List Bool
  | .byte b => one (· == b) text row
  | .any => one plain text row
  | .many => star plain text row
  | .leadingDirectories => either row (star anything text (one slash text row))
  | .trailingDirectories => one slash text (star anything text row)
  | .innerDirectories =>
    one slash text (either row (star anything text (one slash text row)))
  | .oneOf negated ranges =>
    one (fun b => negated != ranges.any fun (a, z) => a ≤ b && b ≤ z) text row
  | .alternatives branches =>
    if areVoid branches then row else branchesRow plain text row branches

def tokensRow (plain : UInt8 → Bool) (text : List UInt8) (row : List Bool) :
    List GlobToken → List Bool
  | [] => row
  | t :: ts => tokenRow plain text (tokensRow plain text row ts) t

/-- The rows of all branches in which something stands, joined. -/
def branchesRow (plain : UInt8 → Bool) (text : List UInt8) (row : List Bool) :
    List (List GlobToken) → List Bool
  | [] => nowhere text
  | b :: bs =>
    let others := branchesRow plain text row bs
    if isVoidList b then others else either (tokensRow plain text row b) others

end

/-- A plain path, or one in any directory. -/
def isPlain : List GlobToken → Bool
  | .leadingDirectories :: ts =>
    ts.all (·.isByte anything) && ts.any (·.isByte slash)
  | ts => ts.all (·.isByte anything)

/-- A name that ends in a point counts as no name, so only a plain path finds it. -/
def findsNothing (g : Glob) : Bool :=
  g.keepsSeparators && !isPlain g.tokens && g.tokens.getLast?.any (·.isByte (· == 0x2E))

/-- The pattern matches all of the text. -/
def isMatch (g : Glob) (text : List UInt8) : Bool :=
  let plain : UInt8 → Bool := fun b => !(g.keepsSeparators && slash b)
  match g.tokens with
  | [.leadingDirectories] => true
  | ts => !g.findsNothing && (tokensRow plain text (atEnd text) ts).headD false

/-- How many parts next to one another the expression for a token has. -/
def width : GlobToken → Nat
  | .trailingDirectories => 2
  | .alternatives branches => if areVoid branches then 0 else 1
  | _ => 1

def rowWidth : List GlobToken → Nat
  | [] => 0
  | t :: ts => width t + rowWidth ts

mutual

/-- How deep the expression for a token nests: each repetition, class, group and choice is a level,
and so is a row of several parts. -/
def depth (keepsSeparators : Bool) : GlobToken → Nat
  | .byte _ => 0
  | .any => if keepsSeparators then 1 else 0
  | .many => if keepsSeparators then 2 else 1
  | .leadingDirectories | .innerDirectories => 4
  | .trailingDirectories => 1
  | .oneOf _ ranges => if 1 < ranges.length then 2 else 1
  | .alternatives branches =>
    if areVoid branches then 0
    else
      let choice := if 1 < branches.countP (!isVoidList ·) then 1 else 0
      1 + choice + deepestBranch keepsSeparators branches

def deepest (keepsSeparators : Bool) : List GlobToken → Nat
  | [] => 0
  | t :: ts => max (depth keepsSeparators t) (deepest keepsSeparators ts)

def deepestBranch (keepsSeparators : Bool) : List (List GlobToken) → Nat
  | [] => 0
  | b :: bs =>
    let row := if 1 < rowWidth b then 1 else 0
    max (row + deepest keepsSeparators b) (deepestBranch keepsSeparators bs)

end

/-- The deepest expression that can be compiled. -/
def maxDepth : Nat := 250

/-- One matcher can be built of the patterns. -/
def areBuildable (gs : List Glob) : Bool :=
  gs.all fun g => 1 + deepest g.keepsSeparators g.tokens ≤ maxDepth

end Glob

end TokenAudit
