/-! Regular expressions of characters, points, stars and anchors: how they are written and where they
are found. A backslash in front of a sign stands for the sign as a character. -/

namespace TokenAudit.Text.Expression

/-- The characters that mean something else than themselves, or could. -/
def signs : List Char :=
  ['\\', '.', '+', '*', '?', '(', ')', '|', '[', ']', '\x7b', '\x7d', '^', '$', '#', '&', '-', '~']

/-- What is accepted at one place: a character, or any that does not end the line. -/
inductive Atom
  | char (c : Char)
  | point
  deriving DecidableEq

def Atom.accepts : Atom → Char → Bool
  | .char d, c => c == d
  | .point, c => c != '\n'

inductive Symbol
  | atom (a : Atom)
  | star
  | start
  | stop
  deriving DecidableEq

/-- What a character stands for without a backslash. -/
def symbol? (c : Char) : Option Symbol :=
  match c with
  | '.' => some (.atom .point)
  | '*' => some .star
  | '^' => some .start
  | '$' => some .stop
  | c => if c ∈ signs then none else some (.atom (.char c))

def symbols? : List Char → Option (List Symbol)
  | [] => some []
  | '\\' :: c :: e => if c ∈ signs then (symbols? e).map (.atom (.char c) :: ·) else none
  | c :: e => (symbol? c).bind fun s => (symbols? e).map (s :: ·)

inductive Part
  | start
  | stop
  | one (a : Atom)
  | many (a : Atom)
  deriving DecidableEq

/-- A star belongs to the atom in front of it. -/
def parts? : List Symbol → Option (List Part)
  | [] => some []
  | .start :: ss => (parts? ss).map (.start :: ·)
  | .stop :: ss => (parts? ss).map (.stop :: ·)
  | .atom a :: .star :: ss => (parts? ss).map (.many a :: ·)
  | .atom a :: ss => (parts? ss).map (.one a :: ·)
  | .star :: _ => none

/-- The parts of an expression, if it is one. -/
def read? (e : List Char) : Option (List Part) := (symbols? e).bind parts?

/-- The parts match one after another from the place between `before` and `after`. -/
def MatchesAt : List Part → List Char → List Char → Prop
  | [], _, _ => True
  | .start :: ps, before, after => before = [] ∧ MatchesAt ps before after
  | .stop :: ps, before, after => after = [] ∧ MatchesAt ps before after
  | .one a :: ps, before, after =>
    ∃ c rest, after = c :: rest ∧ a.accepts c = true ∧ MatchesAt ps (before ++ [c]) rest
  | .many a :: ps, before, after =>
    ∃ run rest, after = run ++ rest ∧ (∀ c ∈ run, a.accepts c = true) ∧
      MatchesAt ps (before ++ run) rest

/-- The parts match somewhere in the text. -/
def FoundIn (ps : List Part) (text : List Char) : Prop :=
  ∃ before after, text = before ++ after ∧ MatchesAt ps before after

theorem symbols?_escaped {c : Char} (hc : c ∈ signs) (e : List Char) :
    symbols? ('\\' :: c :: e) = (symbols? e).map (.atom (.char c) :: ·) := by
  rw [symbols?, if_pos hc]

theorem symbols?_of_ne {c : Char} (hc : c ≠ '\\') (e : List Char) :
    symbols? (c :: e) = (symbol? c).bind fun s => (symbols? e).map (s :: ·) := by
  rw [symbols?]
  rintro c' e' rfl
  exact absurd rfl hc

theorem symbols?_plain {c : Char} (hc : c ∉ signs) (e : List Char) :
    symbols? (c :: e) = (symbols? e).map (.atom (.char c) :: ·) := by
  have hback : c ≠ '\\' := fun h => hc (h ▸ by decide)
  have hsymbol : symbol? c = some (.atom (.char c)) := by
    unfold symbol?
    split <;> simp_all [signs]
  rw [symbols?_of_ne hback, hsymbol]
  rfl

theorem parts?_atom {ss : List Symbol} (hs : ss.head? ≠ some .star) (a : Atom) :
    parts? (.atom a :: ss) = (parts? ss).map (.one a :: ·) := by
  rw [parts?]
  rintro ss' rfl
  exact hs rfl

/-- An expression that starts with the anchor is found only at the start. -/
theorem foundIn_start_iff {ps : List Part} {text : List Char} :
    FoundIn (.start :: ps) text ↔ MatchesAt ps [] text := by
  constructor
  · rintro ⟨before, after, rfl, rfl, hm⟩
    exact hm
  · intro hm
    exact ⟨[], text, rfl, rfl, hm⟩

end TokenAudit.Text.Expression
