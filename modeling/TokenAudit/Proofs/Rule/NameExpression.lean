import Mathlib.Tactic.SplitIfs
import TokenAudit.Proofs.Rule.NamePattern
import TokenAudit.Proofs.Text.Expression

/-! The regular expression that a pattern on names stands for. All signs of the pattern are escaped
first, and then the escaped stars are made into runs of points, which leaves a backslash in front of
a star what it is. -/

namespace TokenAudit.NamePattern

open Text Text.Expression

variable {c : Char} {e name p : List Char}

/-- The text with a backslash in front of every sign. -/
def escape (text : List Char) : List Char :=
  text.flatMap fun c => if c ∈ signs then ['\\', c] else [c]

/-- Every escaped star becomes a point with a star. -/
def openStars : List Char → List Char
  | '\\' :: '*' :: e => '.' :: '*' :: openStars e
  | c :: e => c :: openStars e
  | [] => []

/-- The regular expression of a pattern, anchored at both ends. -/
def expression (pattern : List Char) : List Char := '^' :: openStars (escape pattern) ++ ['$']

/-- What one character of a pattern becomes. -/
def piece (c : Char) : List Char :=
  if c = '*' then ['.', '*'] else if c ∈ signs then ['\\', c] else [c]

/-- The symbols of one character of a pattern. -/
def symbolsOf (c : Char) : List Symbol :=
  if c = '*' then [.atom .point, .star] else [.atom (.char c)]

def partOf (c : Char) : Part := if c = '*' then .many .point else .one (.char c)

theorem escape_cons (c : Char) (p : List Char) :
    escape (c :: p) = (if c ∈ signs then ['\\', c] else [c]) ++ escape p := rfl

/-- No star of an escaped text is without a backslash. -/
theorem head?_escape_ne_star (p : List Char) : (escape p).head? ≠ some '*' := by
  cases p with
  | nil => simp [escape]
  | cons c p =>
    rw [escape_cons]
    by_cases hc : c ∈ signs
    · simp [hc]
    · have hstar : c ≠ '*' := fun h => hc (h ▸ by decide)
      simp [hc, hstar]

theorem openStars_cons (h : c ≠ '\\' ∨ e.head? ≠ some '*') :
    openStars (c :: e) = c :: openStars e := by
  rw [openStars]
  rintro e' rfl rfl
  simp at h

/-- A backslash of the pattern is escaped itself, so what stands behind it is not taken for an
escaped star. -/
theorem openStars_escape (p : List Char) : openStars (escape p) = p.flatMap piece := by
  induction p with
  | nil => rfl
  | cons c p ih =>
    rw [escape_cons, List.flatMap_cons, piece, ← ih]
    have hnext : c ≠ '\\' ∨ (escape p).head? ≠ some '*' := Or.inr (head?_escape_ne_star p)
    by_cases hstar : c = '*'
    · subst hstar
      rfl
    · by_cases hc : c ∈ signs
      · have hback : openStars ('\\' :: c :: escape p) = '\\' :: openStars (c :: escape p) :=
          openStars_cons (Or.inr (by simpa using hstar))
        simp only [if_pos hc, if_neg hstar, List.cons_append, List.nil_append]
        rw [hback, openStars_cons hnext]
      · simp only [if_neg hc, if_neg hstar, List.cons_append, List.nil_append]
        rw [openStars_cons hnext]

theorem symbols?_piece (c : Char) (e : List Char) :
    symbols? (piece c ++ e) = (symbols? e).map (symbolsOf c ++ ·) := by
  rw [piece, symbolsOf]
  split_ifs with hstar hc
  · simp only [List.cons_append, List.nil_append]
    rw [symbols?_of_ne (by decide), symbols?_of_ne (by decide)]
    cases symbols? e <;> rfl
  · exact symbols?_escaped hc e
  · exact symbols?_plain hc e

theorem symbols?_pieces (p e : List Char) :
    symbols? (p.flatMap piece ++ e) = (symbols? e).map (p.flatMap symbolsOf ++ ·) := by
  induction p with
  | nil => simp
  | cons c p ih =>
    rw [List.flatMap_cons, List.append_assoc, symbols?_piece, ih, List.flatMap_cons,
      Option.map_map]
    simp [Function.comp_def]

/-- A star stands behind a point only. -/
theorem head?_symbols_ne_star (p : List Char) :
    (p.flatMap symbolsOf ++ [Symbol.stop]).head? ≠ some .star := by
  cases p with
  | nil => simp
  | cons c p =>
    rw [List.flatMap_cons, symbolsOf]
    split_ifs <;> simp

theorem parts?_symbolsOf (p : List Char) :
    parts? (p.flatMap symbolsOf ++ [.stop]) = some (p.map partOf ++ [.stop]) := by
  induction p with
  | nil => rfl
  | cons c p ih =>
    rw [List.flatMap_cons, List.append_assoc, symbolsOf, List.map_cons, partOf]
    split_ifs with hstar
    · simp [parts?, ih]
    · rw [List.cons_append, List.nil_append, parts?_atom (head?_symbols_ne_star p), ih]
      rfl

/-- The expression of a pattern has a part for each of its characters. -/
theorem read?_expression (p : List Char) :
    read? (expression p) = some (.start :: (p.map partOf ++ [.stop])) := by
  have hsymbols : symbols? (expression p) =
      some (.start :: (p.flatMap symbolsOf ++ [.stop])) := by
    rw [expression, openStars_escape, List.cons_append, symbols?_of_ne (by decide),
      symbols?_pieces]
    rfl
  rw [read?, hsymbols, Option.bind_some, parts?, parts?_symbolsOf]
  rfl

theorem matchesAt_iff_fills {before after : List Char} :
    MatchesAt (p.map partOf ++ [.stop]) before after ↔ Fills p after := by
  induction p generalizing before after with
  | nil =>
    rw [fills_nil_iff]
    simp [MatchesAt]
  | cons c p ih =>
    rw [List.map_cons, List.cons_append, partOf]
    split_ifs with hstar
    · subst hstar
      simp only [MatchesAt, ih, fills_star_iff, Atom.accepts, bne_iff_ne]
      have hrun : ∀ run : List Char, (∀ c ∈ run, c ≠ '\n') ↔ '\n' ∉ run :=
        fun run => ⟨fun h hmem => h _ hmem rfl, fun h c hc heq => h (heq ▸ hc)⟩
      simp only [hrun]
    · simp only [MatchesAt, ih, fills_cons_iff hstar, Atom.accepts, beq_iff_eq]
      constructor
      · rintro ⟨_, rest, rfl, rfl, h⟩
        exact ⟨rest, rfl, h⟩
      · rintro ⟨rest, rfl, h⟩
        exact ⟨c, rest, rfl, rfl, h⟩

/-- A pattern matches the names that fill it, and no others. So does its regular expression, which
can be read whatever signs the pattern holds. -/
theorem isMatch_iff_fills (pattern name : String) :
    (isMatch pattern name = true ↔ Fills pattern.toList name.toList) ∧
      ∃ parts, read? (expression pattern.toList) = some parts ∧
        (FoundIn parts name.toList ↔ Fills pattern.toList name.toList) := by
  refine ⟨headD_row_iff_fills, _, read?_expression pattern.toList, ?_⟩
  rw [foundIn_start_iff, matchesAt_iff_fills]

/-- A backslash does not make a character of a star. -/
example : isMatch "\\*" "\\pause" = true ∧ isMatch "\\*" "*" = false := by decide

end TokenAudit.NamePattern
