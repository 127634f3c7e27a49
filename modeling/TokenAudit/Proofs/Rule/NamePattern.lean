import TokenAudit.Rule.NamePattern

/-! Patterns on names as texts with gaps: every star is filled by a run of characters on one line,
and all else stands for itself. Rows decide this, one place of the name at a time. -/

namespace TokenAudit.NamePattern

open Text.Row

variable {c d : Char} {name p : List Char}

/-- The name is the pattern with a run of characters, none of which ends a line, for every star. -/
inductive Fills : List Char → List Char → Prop
  | done : Fills [] []
  | star {run p rest} (hrun : '\n' ∉ run) (h : Fills p rest) : Fills ('*' :: p) (run ++ rest)
  | char {c p rest} (hc : c ≠ '*') (h : Fills p rest) : Fills (c :: p) (c :: rest)

theorem fills_nil_iff : Fills [] name ↔ name = [] := by
  constructor
  · rintro ⟨⟩
    rfl
  · rintro rfl
    exact .done

theorem fills_star_iff :
    Fills ('*' :: p) name ↔ ∃ run rest, name = run ++ rest ∧ '\n' ∉ run ∧ Fills p rest := by
  constructor
  · intro h
    cases h with
    | @star run _ rest hrun hrest => exact ⟨run, rest, rfl, hrun, hrest⟩
    | char hc => exact absurd rfl hc
  · rintro ⟨run, rest, rfl, hrun, hrest⟩
    exact .star hrun hrest

theorem fills_cons_iff (hd : d ≠ '*') :
    Fills (d :: p) name ↔ ∃ rest, name = d :: rest ∧ Fills p rest := by
  constructor
  · intro h
    cases h with
    | star => exact absurd rfl hd
    | @char _ _ rest _ hrest => exact ⟨rest, rfl, hrest⟩
  · rintro ⟨rest, rfl, hrest⟩
    exact .char hd hrest

/-- Without a star there is nothing to fill. -/
theorem fills_iff_of_no_star (hp : '*' ∉ p) : Fills p name ↔ p = name := by
  induction p generalizing name with
  | nil => rw [fills_nil_iff, eq_comm]
  | cons d p ih =>
    have hd : d ≠ '*' := fun h => hp (h ▸ List.mem_cons_self)
    have hrest : '*' ∉ p := fun h => hp (List.mem_cons_of_mem _ h)
    simp only [fills_cons_iff hd, ih hrest]
    constructor
    · rintro ⟨rest, rfl, rfl⟩
      rfl
    · rintro rfl
      exact ⟨p, rfl, rfl⟩

theorem row_of_ne_star (hd : d ≠ '*') : row name (d :: p) = one (· == d) name (row name p) := by
  rw [row]
  exact hd

/-- The row of a name goes on with the row of what follows its first character. -/
theorem exists_row_cons (c : Char) (name p : List Char) :
    ∃ m, row (c :: name) p = m :: row name p := by
  fun_induction row name p with
  | case1 => exact ⟨false, rfl⟩
  | case2 p ih =>
    obtain ⟨m, hm⟩ := ih
    rw [row, hm]
    exact ⟨_, rfl⟩
  | case3 d p hd ih =>
    obtain ⟨m, hm⟩ := ih
    rw [row_of_ne_star hd, hm]
    exact ⟨_, rfl⟩

theorem headD_row_nil (hd : d ≠ '*') : (row [] (d :: p)).headD false = false := by
  rw [row_of_ne_star hd]
  rfl

theorem headD_row_cons (hd : d ≠ '*') :
    (row (c :: name) (d :: p)).headD false = (c == d && (row name p).headD false) := by
  obtain ⟨m, hm⟩ := exists_row_cons c name p
  rw [row_of_ne_star hd, hm]
  rfl

theorem headD_row_star_nil : (row [] ('*' :: p)).headD false = (row [] p).headD false := by
  rw [row]
  rfl

/-- A star is filled by nothing, or by one character more. -/
theorem headD_row_star_cons :
    (row (c :: name) ('*' :: p)).headD false =
      ((row (c :: name) p).headD false || (c != '\n' && (row name ('*' :: p)).headD false)) := by
  obtain ⟨m, hm⟩ := exists_row_cons c name p
  rw [row, row, hm]
  rfl

theorem headD_row_star_iff :
    (row name ('*' :: p)).headD false = true ↔
      ∃ run rest, name = run ++ rest ∧ '\n' ∉ run ∧ (row rest p).headD false = true := by
  induction name with
  | nil =>
    rw [headD_row_star_nil]
    constructor
    · intro h
      exact ⟨[], [], rfl, List.not_mem_nil, h⟩
    · rintro ⟨run, rest, hname, -, h⟩
      obtain ⟨-, rfl⟩ := List.append_eq_nil_iff.mp hname.symm
      exact h
  | cons c name ih =>
    rw [headD_row_star_cons, Bool.or_eq_true, Bool.and_eq_true, bne_iff_ne, ih]
    constructor
    · rintro (h | ⟨hc, run, rest, rfl, hrun, h⟩)
      · exact ⟨[], c :: name, rfl, List.not_mem_nil, h⟩
      · exact ⟨c :: run, rest, rfl, by simp [hc.symm, hrun], h⟩
    · rintro ⟨_ | ⟨c', run⟩, rest, hname, hrun, h⟩
      · exact Or.inl (by rwa [hname])
      · obtain ⟨rfl, rfl⟩ := List.cons.inj hname
        obtain ⟨hc, hrun⟩ := not_or.mp (mt List.mem_cons.mpr hrun)
        exact Or.inr ⟨Ne.symm hc, run, rest, rfl, hrun, h⟩

/-- The induction is on the pattern: what a row says of a place is what fills the rest of it. -/
theorem headD_row_iff_fills : (row name p).headD false = true ↔ Fills p name := by
  induction p generalizing name with
  | nil =>
    rw [fills_nil_iff]
    cases name <;> simp [row, atEnd]
  | cons d p ih =>
    by_cases hd : d = '*'
    · subst hd
      simp only [headD_row_star_iff, fills_star_iff, ih]
    · rw [fills_cons_iff hd]
      cases name with
      | nil =>
        rw [headD_row_nil hd]
        simp
      | cons c name =>
        rw [headD_row_cons hd, Bool.and_eq_true, beq_iff_eq, ih]
        simp only [List.cons.injEq]
        constructor
        · rintro ⟨hc, h⟩
          exact ⟨name, ⟨hc, rfl⟩, h⟩
        · rintro ⟨rest, ⟨hc, rfl⟩, h⟩
          exact ⟨hc, h⟩

theorem isMatch_iff_of_no_star {pattern name : String} (hp : '*' ∉ pattern.toList) :
    isMatch pattern name = true ↔ pattern = name := by
  rw [isMatch, headD_row_iff_fills, fills_iff_of_no_star hp, String.toList_inj]

end TokenAudit.NamePattern
