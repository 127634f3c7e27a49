import Mathlib.Data.List.TakeWhile
import TokenAudit.Text.Blank

/-! Trimming: what is taken from a text are blanks at its ends, and blanks put there change
nothing. -/

namespace TokenAudit.Text

variable {before after text : List Char}

/-- A text of blank characters alone. -/
def IsBlank (cs : List Char) : Prop := ∀ c ∈ cs, isBlank c = true

instance (cs : List Char) : Decidable (IsBlank cs) :=
  decidable_of_iff (cs.all isBlank = true) List.all_eq_true

theorem isBlank_nil : IsBlank [] := fun _ hc => absurd hc List.not_mem_nil

theorem trimStart_append (hb : IsBlank before) (text : List Char) :
    trimStart (before ++ text) = trimStart text :=
  List.dropWhile_append_of_pos hb

theorem trimEnd_append (ha : IsBlank after) (text : List Char) :
    trimEnd (text ++ after) = trimEnd text := by
  have hrev : ∀ c ∈ after.reverse, isBlank c = true := fun c hc => ha c (List.mem_reverse.mp hc)
  unfold trimEnd
  rw [List.reverse_append, List.dropWhile_append_of_pos hrev]

theorem trimEnd_of_isBlank (ha : IsBlank after) : trimEnd after = [] := by
  have hnil := trimEnd_append ha []
  rw [List.nil_append] at hnil
  rw [hnil]
  rfl

theorem isBlank_takeWhile (text : List Char) : IsBlank (text.takeWhile isBlank) :=
  fun _ hc => List.mem_takeWhile_imp hc

theorem isBlank_dropWhile (ha : IsBlank after) (p : Char → Bool) : IsBlank (after.dropWhile p) :=
  fun c hc => ha c ((List.dropWhile_sublist p).subset hc)

/-- Blanks at the ends of a text do not show when it is trimmed. -/
theorem trim_append (hb : IsBlank before) (ha : IsBlank after) (text : List Char) :
    trim (before ++ text ++ after) = trim text := by
  have hstart : trimEnd (trimStart (text ++ after)) = trimEnd (trimStart text) := by
    unfold trimStart
    rw [List.dropWhile_append]
    split
    · next hnil =>
      rw [List.isEmpty_iff.mp hnil, trimEnd_of_isBlank (isBlank_dropWhile ha _)]
      rfl
    · exact trimEnd_append ha _
  unfold trim
  rw [List.append_assoc, trimStart_append hb, hstart]

theorem exists_eq_trimStart (text : List Char) :
    ∃ before, IsBlank before ∧ text = before ++ trimStart text :=
  ⟨_, isBlank_takeWhile text, List.takeWhile_append_dropWhile.symm⟩

theorem exists_eq_trimEnd (text : List Char) :
    ∃ after, IsBlank after ∧ text = trimEnd text ++ after := by
  obtain ⟨after, ha, hrev⟩ := exists_eq_trimStart text.reverse
  refine ⟨after.reverse, fun c hc => ha c (List.mem_reverse.mp hc), ?_⟩
  calc text = (after ++ trimStart text.reverse).reverse := by rw [← hrev, List.reverse_reverse]
    _ = trimEnd text ++ after.reverse := by
      rw [List.reverse_append]
      rfl

/-- A text is what is left of it when it is trimmed, with blanks around it. -/
theorem exists_eq_trim (text : List Char) :
    ∃ before after, IsBlank before ∧ IsBlank after ∧ text = before ++ trim text ++ after := by
  obtain ⟨before, hb, hstart⟩ := exists_eq_trimStart text
  obtain ⟨after, ha, hend⟩ := exists_eq_trimEnd (trimStart text)
  refine ⟨before, after, hb, ha, ?_⟩
  calc text = before ++ trimStart text := hstart
    _ = before ++ (trim text ++ after) := congrArg _ hend
    _ = before ++ trim text ++ after := (List.append_assoc _ _ _).symm

theorem trimStart_of_not_blank (h : ∀ c ∈ text, isBlank c = false) : trimStart text = text := by
  cases text with
  | nil => rfl
  | cons c cs =>
    have hc : ¬ isBlank c = true := by simp [h c List.mem_cons_self]
    exact List.dropWhile_cons_of_neg hc

theorem trim_of_not_blank (h : ∀ c ∈ text, isBlank c = false) : trim text = text := by
  have hrev : ∀ c ∈ text.reverse, isBlank c = false := fun c hc => h c (List.mem_reverse.mp hc)
  have hend : trimEnd text = text := by
    change (trimStart text.reverse).reverse = text
    rw [trimStart_of_not_blank hrev, List.reverse_reverse]
  unfold trim
  rw [trimStart_of_not_blank h, hend]

end TokenAudit.Text
