import TokenAudit.Json.Text

/-! A string that is written between quotes is read back as it was, whatever its characters. -/

namespace TokenAudit.JsonString

variable {c : Char} {rest : List Char}

theorem hexCode?_escapeCode : ∀ n < 0x20,
    hexCode? '0' '0' (Nat.digitChar (n / 16 % 16)) (Nat.digitChar (n % 16)) = some n := by
  decide

theorem escapeCode_eq {n : Nat} (hn : n < 0x20) :
    escapeCode n = ['\\', 'u', '0', '0', Nat.digitChar (n / 16 % 16), Nat.digitChar (n % 16)] := by
  have h₁ : n / 4096 % 16 = 0 := by omega
  have h₂ : n / 256 % 16 = 0 := by omega
  simp [escapeCode, h₁, h₂]

/-- A character that needs no escape. -/
structure Plain (c : Char) : Prop where
  ne_quote : c ≠ '"'
  ne_backslash : c ≠ '\\'
  not_control : ¬ c.toNat < 0x20

theorem units_plain (hc : Plain c) (rest : List Char) :
    units (c :: rest) = (.char c :: (units rest).1, (units rest).2) := by
  rw [units.eq_def]
  split
  · next h => cases h
  · next h => exact absurd (List.cons.inj h).1 hc.ne_quote
  · next h => exact absurd (List.cons.inj h).1 hc.ne_backslash
  · next h =>
    obtain ⟨rfl, rfl⟩ := List.cons.inj h
    rw [if_neg hc.not_control]

theorem units_escapeCode {n : Nat} (hn : n < 0x20) (rest : List Char) :
    units (escapeCode n ++ rest) = (.code n :: (units rest).1, (units rest).2) := by
  rw [escapeCode_eq hn]
  simp only [List.cons_append, List.nil_append, units, hexCode?_escapeCode n hn]

/-- The unit that a character is read as. -/
inductive Stands (c : Char) : Unit → Prop
  | char : Stands c (.char c)
  | code (h : c.toNat < 0x20) : Stands c (.code c.toNat)

theorem units_escape (c : Char) (rest : List Char) :
    ∃ u, Stands c u ∧ units (escape c ++ rest) = (u :: (units rest).1, (units rest).2) := by
  unfold escape
  split
  case h_8 hquote hbackslash _ _ _ _ _ =>
    split
    · next hcontrol => exact ⟨_, .code hcontrol, units_escapeCode hcontrol rest⟩
    · next hcontrol =>
      exact ⟨_, .char, units_plain ⟨fun h => hquote h, fun h => hbackslash h, hcontrol⟩ rest⟩
  all_goals exact ⟨_, .char, by simp [units, simpleEscape?]⟩

theorem characters_cons {u : Unit} (hu : Stands c u) (e : End) (us : List Unit) :
    characters e (u :: us) = (c :: ·) <$> characters e us := by
  cases hu with
  | char => rw [characters]
  | code h =>
    have hlow : isLowSurrogate c.toNat = false := by
      simp only [isLowSurrogate, Bool.and_eq_false_iff, decide_eq_false_iff_not]
      omega
    have hhigh : isHighSurrogate c.toNat = false := by
      simp only [isHighSurrogate, Bool.and_eq_false_iff, decide_eq_false_iff_not]
      omega
    rw [characters.eq_def]
    simp only [hlow, hhigh, Char.ofNat_toNat, if_neg Bool.false_ne_true]

theorem units_flatMap_escape (s rest : List Char) :
    ∃ us, units (s.flatMap escape ++ '"' :: rest) = (us, .closed rest) ∧
      ∀ e, characters e us = .ok s := by
  induction s with
  | nil => exact ⟨[], by simp [units], fun e => by rw [characters]⟩
  | cons c s ih =>
    obtain ⟨us, hunits, hcharacters⟩ := ih
    obtain ⟨u, hu, hescape⟩ := units_escape c (s.flatMap escape ++ '"' :: rest)
    refine ⟨u :: us, ?_, fun e => ?_⟩
    · rw [List.flatMap_cons, List.append_assoc, hescape, hunits]
    · rw [characters_cons hu, hcharacters]
      rfl

/-- Reading what has been written between quotes. -/
theorem read_escaped (s rest : List Char) :
    read (s.flatMap escape ++ '"' :: rest) = .ok (.text (String.ofList s), rest) := by
  obtain ⟨us, hunits, hcharacters⟩ := units_flatMap_escape s rest
  simp only [read, hunits, hcharacters]

end TokenAudit.JsonString
