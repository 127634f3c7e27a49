import TokenAudit.Text.Lines

/-! The lines of a text that has been put together from lines are these lines. -/

namespace TokenAudit.Text

variable {c : Char} {l r : List Char} {ls : List (List Char)}

/-- A text without any character that ends a line or may stand in front of its end. -/
structure IsLine (l : List Char) : Prop where
  no_feed : '\n' ∉ l
  no_return : '\r' ∉ l

theorem IsLine.of_cons (h : IsLine (c :: l)) : c ≠ '\n' ∧ c ≠ '\r' ∧ IsLine l := by
  obtain ⟨hfeed, hreturn⟩ := h
  rw [List.mem_cons, not_or] at hfeed hreturn
  exact ⟨Ne.symm hfeed.1, Ne.symm hreturn.1, hfeed.2, hreturn.2⟩

theorem IsLine.append (hl : IsLine l) (hr : IsLine r) : IsLine (l ++ r) :=
  ⟨by simp [hl.no_feed, hr.no_feed], by simp [hl.no_return, hr.no_return]⟩

theorem lines_cons_of_ne (hn : c ≠ '\n') (hr : c ≠ '\r') (h : lines r = l :: ls) :
    lines (c :: r) = (c :: l) :: ls := by
  rw [lines]
  · rw [h]
  · exact hn
  · exact fun r' h' => absurd h' hr

theorem lines_append_newline (hl : IsLine l) (r : List Char) :
    lines (l ++ '\n' :: r) = l :: lines r := by
  induction l with
  | nil => rw [List.nil_append, lines]
  | cons c l ih =>
    obtain ⟨hn, hr, hl⟩ := hl.of_cons
    exact lines_cons_of_ne hn hr (ih hl)

theorem lines_of_isLine (hl : IsLine l) (hne : l ≠ []) : lines l = [l] := by
  induction l with
  | nil => exact absurd rfl hne
  | cons c l ih =>
    obtain ⟨hn, hr, hl⟩ := hl.of_cons
    cases l with
    | nil =>
      rw [lines]
      · rfl
      · exact hn
      · exact fun r' h' => absurd h' hr
    | cons d l => exact lines_cons_of_ne hn hr (ih hl (List.cons_ne_nil d l))

/-- Lines, each with a line feed behind it. -/
theorem lines_ended (h : ∀ l ∈ ls, IsLine l) : lines (ls.flatMap (· ++ ['\n'])) = ls := by
  induction ls with
  | nil => rfl
  | cons l ls ih =>
    obtain ⟨hl, hls⟩ := List.forall_mem_cons.mp h
    rw [List.flatMap_cons, List.append_assoc, List.singleton_append, lines_append_newline hl,
      ih hls]

/-- Lines in which something stands, with a line feed between any two. -/
theorem lines_separated (h : ∀ k ∈ l :: ls, IsLine k ∧ k ≠ []) :
    lines (l ++ ls.flatMap ('\n' :: ·)) = l :: ls := by
  induction ls generalizing l with
  | nil =>
    obtain ⟨hl, hne⟩ := h l List.mem_cons_self
    rw [List.flatMap_nil, List.append_nil, lines_of_isLine hl hne]
  | cons k ls ih =>
    obtain ⟨hl, hrest⟩ := List.forall_mem_cons.mp h
    rw [List.flatMap_cons, List.cons_append, lines_append_newline hl.1, ih hrest]

end TokenAudit.Text
