import TokenAudit.Proofs.Text.Blank
import TokenAudit.Proofs.Text.Search
import TokenAudit.Solidity.Name

/-! Which texts have a simple name: those that end in an identifier, apart from arguments behind it
and blanks around it, with nothing in front of it but a qualifier that ends in a dot. -/

namespace TokenAudit.Solidity

open TokenAudit.Text

variable {text name head arguments : List Char} {c : Char}

/-- An ASCII letter, an underscore or a dollar sign. -/
def IsLetter (c : Char) : Prop :=
  ('a' ≤ c ∧ c ≤ 'z') ∨ ('A' ≤ c ∧ c ≤ 'Z') ∨ c = '_' ∨ c = '$'

def IsDigit (c : Char) : Prop := '0' ≤ c ∧ c ≤ '9'

/-- A letter, and then letters and digits. -/
def IsIdentifier (name : List Char) : Prop :=
  ∃ first rest, name = first :: rest ∧ IsLetter first ∧ ∀ c ∈ rest, IsLetter c ∨ IsDigit c

/-- The characters that argument lists and option blocks start with. -/
def IsBracket (c : Char) : Prop := c = '(' ∨ c = '\x7b'

/-- Nothing, or a text up to a dot that has no arguments in it. -/
def IsQualifier (cs : List Char) : Prop :=
  (cs = [] ∨ ∃ rest, cs = rest ++ ['.']) ∧ ∀ c ∈ cs, ¬ IsBracket c

def IsArguments (cs : List Char) : Prop :=
  cs = [] ∨ ∃ bracket rest, IsBracket bracket ∧ cs = bracket :: rest

/-- The text ends in `name`, apart from arguments and blanks. -/
def EndsIn (text name : List Char) : Prop :=
  ∃ qualifier before after arguments, IsQualifier qualifier ∧ IsBlank before ∧ IsBlank after ∧
    IsArguments arguments ∧ text = qualifier ++ (before ++ name ++ after) ++ arguments

theorem isDigit_iff : c.isDigit = true ↔ IsDigit c := by
  simp [Char.isDigit, IsDigit, Char.le_def]

theorem isLower_iff : c.isLower = true ↔ 'a' ≤ c ∧ c ≤ 'z' := by
  change (decide ('a'.val ≤ c.val) && decide (c.val ≤ 'z'.val)) = true ↔ _
  rw [Bool.and_eq_true, decide_eq_true_eq, decide_eq_true_eq]
  rfl

theorem isUpper_iff : c.isUpper = true ↔ 'A' ≤ c ∧ c ≤ 'Z' := by
  change (decide ('A'.val ≤ c.val ∧ c.val ≤ 'Z'.val)) = true ↔ _
  rw [decide_eq_true_eq]
  rfl

theorem isNameChar_iff : isNameChar c = true ↔ IsLetter c ∨ IsDigit c := by
  change (((c.isUpper || c.isLower) || c.isDigit) || c == '_' || c == '$') = true ↔ _
  simp only [Bool.or_eq_true, isLower_iff, isUpper_iff, isDigit_iff, beq_iff_eq, IsLetter]
  tauto

theorem IsLetter.bounds (h : IsLetter c) :
    (97 ≤ c.toNat ∧ c.toNat ≤ 122) ∨ (65 ≤ c.toNat ∧ c.toNat ≤ 90) ∨ c.toNat = 95 ∨
      c.toNat = 36 := by
  rcases h with h | h | rfl | rfl
  · exact Or.inl h
  · exact Or.inr (Or.inl h)
  · exact Or.inr (Or.inr (Or.inl rfl))
  · exact Or.inr (Or.inr (Or.inr rfl))

theorem IsLetter.not_isDigit (h : IsLetter c) : ¬ IsDigit c := by
  intro hd
  have hlow : 48 ≤ c.toNat := hd.1
  have hhigh : c.toNat ≤ 57 := hd.2
  have hbounds := h.bounds
  omega

theorem isName_iff : isName name = true ↔ IsIdentifier name := by
  cases name with
  | nil => simp [isName, IsIdentifier]
  | cons first rest =>
    simp only [isName, Bool.and_eq_true, Bool.not_eq_true', ← Bool.not_eq_true, isDigit_iff,
      List.all_eq_true, isNameChar_iff, List.forall_mem_cons]
    constructor
    · intro h
      obtain ⟨hstart, hfirst, hrest⟩ := h
      exact ⟨first, rest, rfl, hfirst.resolve_right hstart, hrest⟩
    · intro h
      obtain ⟨_, _, heq, hfirst, hrest⟩ := h
      obtain ⟨rfl, rfl⟩ := List.cons.inj heq
      exact ⟨hfirst.not_isDigit, Or.inl hfirst, hrest⟩

instance (name : List Char) : Decidable (IsIdentifier name) := decidable_of_iff _ isName_iff

theorem IsIdentifier.isLetter_or_isDigit (h : IsIdentifier name) (hc : c ∈ name) :
    IsLetter c ∨ IsDigit c := by
  obtain ⟨first, rest, rfl, hfirst, hrest⟩ := h
  rcases List.mem_cons.mp hc with rfl | hc
  · exact Or.inl hfirst
  · exact hrest c hc

theorem bounds_of_isLetter_or_isDigit (h : IsLetter c ∨ IsDigit c) :
    c.toNat = 36 ∨ (48 ≤ c.toNat ∧ c.toNat ≤ 57) ∨ (65 ≤ c.toNat ∧ c.toNat ≤ 122) := by
  rcases h with h | h
  · have hbounds := h.bounds
    omega
  · exact Or.inr (Or.inl h)

theorem IsIdentifier.not_blank (h : IsIdentifier name) : ∀ c ∈ name, isBlank c = false := by
  intro c hc
  have hbounds := bounds_of_isLetter_or_isDigit (h.isLetter_or_isDigit hc)
  rw [Bool.eq_false_iff]
  intro hblank
  simp only [isBlank, Bool.or_eq_true, Bool.and_eq_true, decide_eq_true_eq, beq_iff_eq] at hblank
  omega

/-- A character at which a text is not cut. -/
def IsPlain (c : Char) : Prop := c ≠ '.' ∧ ¬ IsBracket c

theorem IsIdentifier.plain (h : IsIdentifier name) : ∀ c ∈ name, IsPlain c := by
  intro c hc
  have hbounds := bounds_of_isLetter_or_isDigit (h.isLetter_or_isDigit hc)
  constructor
  · rintro rfl
    revert hbounds
    decide
  · rintro (rfl | rfl) <;> revert hbounds <;> decide

theorem plain_of_isBlank (hb : IsBlank text) : ∀ c ∈ text, IsPlain c := by
  intro c hc
  have hblank := hb c hc
  constructor
  · rintro rfl
    revert hblank
    decide
  · rintro (rfl | rfl) <;> revert hblank <;> decide

theorem IsIdentifier.plain_surround (h : IsIdentifier name) {before after : List Char}
    (hb : IsBlank before) (ha : IsBlank after) : ∀ c ∈ before ++ name ++ after, IsPlain c := by
  intro c hc
  simp only [List.mem_append] at hc
  rcases hc with (hc | hc) | hc
  · exact plain_of_isBlank hb c hc
  · exact h.plain c hc
  · exact plain_of_isBlank ha c hc

theorem not_isBracket_iff : ¬ IsBracket c ↔ (c != '(' && c != '\x7b') = true := by
  simp [IsBracket]

theorem beforeArguments_append (hh : ∀ c ∈ head, ¬ IsBracket c) (ha : IsArguments arguments) :
    beforeArguments (head ++ arguments) = head := by
  unfold beforeArguments
  rw [List.takeWhile_append_of_pos fun c hc => not_isBracket_iff.mp (hh c hc)]
  rcases ha with rfl | ⟨bracket, rest, hbracket, rfl⟩
  · exact List.append_nil head
  · have hstop : ¬ (bracket != '(' && bracket != '\x7b') = true := by
      rwa [← not_isBracket_iff, not_not]
    have hnil : (bracket :: rest).takeWhile (fun c => c != '(' && c != '\x7b') = [] :=
      List.takeWhile_cons_of_neg hstop
    rw [hnil, List.append_nil]

theorem exists_eq_beforeArguments (text : List Char) :
    ∃ arguments, IsArguments arguments ∧ text = beforeArguments text ++ arguments ∧
      ∀ c ∈ beforeArguments text, ¬ IsBracket c := by
  refine ⟨_, ?_, List.takeWhile_append_dropWhile.symm, fun c hc => ?_⟩
  · cases hrest : text.dropWhile fun c => c != '(' && c != '\x7b' with
    | nil => exact Or.inl rfl
    | cons bracket rest =>
      have hstop := List.head?_dropWhile_not (fun c => c != '(' && c != '\x7b') text
      rw [hrest] at hstop
      have hbracket : IsBracket bracket := by
        rw [← not_not (a := IsBracket bracket), not_isBracket_iff]
        simpa using hstop
      exact Or.inr ⟨bracket, rest, hbracket, rfl⟩
  · have hkeep : (c != '(' && c != '\x7b') = true :=
      List.mem_takeWhile_imp (p := fun c => c != '(' && c != '\x7b') hc
    exact not_isBracket_iff.mpr hkeep

/-- What follows the last dot is the same, blanks aside, if the text has been trimmed before. -/
theorem trim_afterLast_trim (text : List Char) :
    trim (afterLast '.' (trim text)) = trim (afterLast '.' text) := by
  obtain ⟨before, after, hb, ha, htext⟩ := exists_eq_trim text
  generalize trim text = kept at htext ⊢
  subst htext
  have hafter : '.' ∉ after := fun hdot => (plain_of_isBlank ha '.' hdot).1 rfl
  by_cases hdot : '.' ∈ kept
  · obtain ⟨front, hfront, hkept, hfresh⟩ := exists_eq_afterLast '.' kept
    obtain rfl | ⟨rest, rfl⟩ := hfront
    · exact absurd hdot (hkept ▸ hfresh)
    · have hsplit : before ++ kept ++ after =
          (before ++ rest) ++ '.' :: (afterLast '.' kept ++ after) := by
        conv_lhs => rw [hkept]
        simp
      have hlast : '.' ∉ afterLast '.' kept ++ after := by simp [hfresh, hafter]
      rw [hsplit, afterLast_append_cons, afterLast_of_not_mem hlast]
      exact (trim_append isBlank_nil ha _).symm
  · have hbefore : '.' ∉ before := fun hdot => (plain_of_isBlank hb '.' hdot).1 rfl
    have hwhole : '.' ∉ before ++ kept ++ after := by simp [hbefore, hdot, hafter]
    rw [afterLast_of_not_mem hdot, afterLast_of_not_mem hwhole, trim_append hb ha]

theorem simpleName?_eq_some_iff_trim :
    simpleName? text = some name ↔
      IsIdentifier name ∧ trim (afterLast '.' (beforeArguments text)) = name := by
  unfold simpleName?
  rw [trim_afterLast_trim]
  dsimp only
  split
  · next hname =>
    rw [Option.some.injEq]
    constructor
    · rintro rfl
      exact ⟨isName_iff.mp hname, rfl⟩
    · exact fun h => h.2
  · next hname =>
    refine iff_of_false (by simp) ?_
    rintro ⟨hid, rfl⟩
    exact hname (isName_iff.mpr hid)

theorem IsQualifier.afterLast_append {qualifier part : List Char} (hq : IsQualifier qualifier)
    (hp : '.' ∉ part) : afterLast '.' (qualifier ++ part) = part := by
  obtain ⟨rfl | ⟨rest, rfl⟩, -⟩ := hq
  · exact afterLast_of_not_mem hp
  · rw [List.append_assoc, List.singleton_append, afterLast_append_cons, afterLast_of_not_mem hp]

/-- The simple name of a text is the identifier that it ends in. -/
theorem simpleName?_eq_some_iff :
    simpleName? text = some name ↔ IsIdentifier name ∧ EndsIn text name := by
  rw [simpleName?_eq_some_iff_trim]
  refine and_congr_right fun hid => ⟨fun htrim => ?_, fun hends => ?_⟩
  · obtain ⟨arguments, hargs, htext, hhead⟩ := exists_eq_beforeArguments text
    obtain ⟨qualifier, hq, hlast, -⟩ := exists_eq_afterLast '.' (beforeArguments text)
    obtain ⟨before, after, hb, ha, hpart⟩ := exists_eq_trim (afterLast '.' (beforeArguments text))
    rw [htrim] at hpart
    refine ⟨qualifier, before, after, arguments, ⟨hq, fun c hc => hhead c ?_⟩, hb, ha, hargs, ?_⟩
    · rw [hlast]
      exact List.mem_append_left _ hc
    · rw [← hpart, ← hlast, ← htext]
  · obtain ⟨qualifier, before, after, arguments, hq, hb, ha, hargs, rfl⟩ := hends
    have hplain := hid.plain_surround hb ha
    have hhead : ∀ c ∈ qualifier ++ (before ++ name ++ after), ¬ IsBracket c := by
      intro c hc
      rcases List.mem_append.mp hc with hc | hc
      · exact hq.2 c hc
      · exact (hplain c hc).2
    rw [beforeArguments_append hhead hargs, hq.afterLast_append fun hdot => (hplain _ hdot).1 rfl,
      trim_append hb ha, trim_of_not_blank hid.not_blank]

theorem isQualifier_nil : IsQualifier [] := ⟨Or.inl rfl, fun _ h => absurd h List.not_mem_nil⟩

theorem endsIn_surround (name : List Char) {before after : List Char} (hb : IsBlank before)
    (ha : IsBlank after) : EndsIn (before ++ name ++ after) name :=
  ⟨[], before, after, [], isQualifier_nil, hb, ha, Or.inl rfl, by simp⟩

theorem endsIn_self (name : List Char) : EndsIn name name := by
  simpa using endsIn_surround name isBlank_nil isBlank_nil

theorem EndsIn.append_arguments (h : EndsIn text name) (hc : IsBracket c) (rest : List Char) :
    EndsIn (text ++ c :: rest) name := by
  obtain ⟨qualifier, before, after, arguments, hq, hb, ha, hargs, rfl⟩ := h
  refine ⟨qualifier, before, after, arguments ++ c :: rest, hq, hb, ha, Or.inr ?_, by simp⟩
  rcases hargs with rfl | ⟨bracket, inner, hbracket, rfl⟩
  · exact ⟨c, rest, hc, rfl⟩
  · exact ⟨bracket, inner ++ c :: rest, hbracket, rfl⟩

theorem EndsIn.qualified (h : EndsIn text name) (hh : ∀ c ∈ head, ¬ IsBracket c) :
    EndsIn (head ++ '.' :: text) name := by
  obtain ⟨qualifier, before, after, arguments, ⟨hq, hplain⟩, hb, ha, hargs, rfl⟩ := h
  refine ⟨head ++ '.' :: qualifier, before, after, arguments, ⟨Or.inr ?_, ?_⟩, hb, ha, hargs,
    by simp⟩
  · rcases hq with rfl | ⟨rest, rfl⟩
    · exact ⟨head, rfl⟩
    · exact ⟨head ++ '.' :: rest, by simp⟩
  · intro c hc
    rcases List.mem_append.mp hc with hc | hc
    · exact hh c hc
    · rcases List.mem_cons.mp hc with rfl | hc
      · simp [IsBracket]
      · exact hplain c hc

/-- An identifier between dots, with blanks around it. -/
structure PathPart where
  before : List Char
  name : List Char
  after : List Char
  blank_before : IsBlank before
  isIdentifier : IsIdentifier name
  blank_after : IsBlank after

def PathPart.spelling (p : PathPart) : List Char := p.before ++ p.name ++ p.after

/-- The parts, joined by dots. -/
def spelled (parts : List PathPart) : List Char := ['.'].intercalate (parts.map PathPart.spelling)

theorem endsIn_spelled (parts : List PathPart) (last : PathPart) :
    EndsIn (spelled (parts ++ [last])) last.name := by
  induction parts with
  | nil =>
    have hone : spelled ([] ++ [last]) = last.spelling := by simp [spelled]
    rw [hone]
    exact endsIn_surround last.name last.blank_before last.blank_after
  | cons p parts ih =>
    have hjoin : spelled (p :: parts ++ [last]) =
        p.spelling ++ '.' :: spelled (parts ++ [last]) := by
      unfold spelled
      rw [List.cons_append, List.map_cons, List.intercalate_cons_of_ne_nil (by simp)]
      simp
    rw [hjoin]
    refine ih.qualified fun c hc => ?_
    exact (p.isIdentifier.plain_surround p.blank_before p.blank_after c hc).2

/-- A simple name is an identifier and its own simple name. It stays the simple name of the text
with arguments behind it or a qualifier in front of it. Of identifiers joined by dots, whatever the
blanks around them, the last is the simple name. -/
theorem simpleName?_in_context :
    (∀ text name, simpleName? text = some name →
      IsIdentifier name ∧ simpleName? name = some name ∧
      (∀ bracket rest, bracket = '(' ∨ bracket = '\x7b' →
        simpleName? (text ++ bracket :: rest) = some name) ∧
      ∀ qualifier : List Char, '(' ∉ qualifier → '\x7b' ∉ qualifier →
        simpleName? (qualifier ++ '.' :: text) = some name) ∧
    ∀ (parts : List PathPart) (last : PathPart),
      simpleName? (spelled (parts ++ [last])) = some last.name := by
  constructor
  · intro text name h
    obtain ⟨hid, hends⟩ := simpleName?_eq_some_iff.mp h
    refine ⟨hid, ?_, ?_, ?_⟩
    · exact simpleName?_eq_some_iff.mpr ⟨hid, endsIn_self name⟩
    · intro bracket rest hbracket
      exact simpleName?_eq_some_iff.mpr ⟨hid, hends.append_arguments hbracket rest⟩
    · intro qualifier hround hcurly
      have hhead : ∀ c ∈ qualifier, ¬ IsBracket c := by
        rintro c hc (rfl | rfl)
        · exact hround hc
        · exact hcurly hc
      exact simpleName?_eq_some_iff.mpr ⟨hid, hends.qualified hhead⟩
  · intro parts last
    exact simpleName?_eq_some_iff.mpr ⟨last.isIdentifier, endsIn_spelled parts last⟩

/-- A member of a library, with blanks around the dot. -/
def safeTransfer : List PathPart × PathPart :=
  ([⟨" ".toList, "SafeERC20".toList, "\t".toList, by decide, by decide, by decide⟩],
    ⟨"\n".toList, "safeTransfer".toList, [], by decide, by decide, by decide⟩)

theorem simpleName?_in_context_call :
    simpleName? "token.call\x7bvalue: 1\x7d".toList = some "call".toList ∧
      IsIdentifier "call".toList ∧
      simpleName? ("token.call\x7bvalue: 1\x7d".toList ++ '(' :: "data)".toList) =
        some "call".toList ∧
      simpleName? (" this ".toList ++ '.' :: "token.call\x7bvalue: 1\x7d".toList) =
        some "call".toList ∧
      spelled (safeTransfer.1 ++ [safeTransfer.2]) = " SafeERC20\t.\nsafeTransfer".toList ∧
      simpleName? (spelled (safeTransfer.1 ++ [safeTransfer.2])) = some "safeTransfer".toList := by
  have hcall : simpleName? "token.call\x7bvalue: 1\x7d".toList = some "call".toList := by decide
  obtain ⟨hid, -, harguments, hqualified⟩ := simpleName?_in_context.1 _ _ hcall
  refine ⟨hcall, hid, harguments '(' _ (Or.inl rfl), ?_, by decide, ?_⟩
  · exact hqualified " this ".toList (by decide) (by decide)
  · exact simpleName?_in_context.2 safeTransfer.1 safeTransfer.2

end TokenAudit.Solidity
