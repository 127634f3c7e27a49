import Mathlib.Data.List.Infix
import Mathlib.Data.List.TakeWhile
import TokenAudit.Text.Search

/-! Cutting a text at a separator, the words in front of the first separator and the text after
the last. -/

namespace TokenAudit.Text

variable {α : Type} [BEq α] [LawfulBEq α] {a : α} {separator text before after : List α}

theorem dropPrefix?_eq_some_iff :
    dropPrefix? separator text = some after ↔ text = separator ++ after := by
  unfold dropPrefix?
  split
  · next h =>
    obtain ⟨rest, rfl⟩ := List.isPrefixOf_iff_prefix.mp h
    simp [eq_comm]
  · next h =>
    refine ⟨nofun, fun heq => (h ?_).elim⟩
    exact List.isPrefixOf_iff_prefix.mpr ⟨after, heq.symm⟩

/-- What is cut from a text puts it together again. -/
theorem eq_of_cut? (h : cut? separator text = some (before, after)) :
    text = before ++ separator ++ after := by
  induction text generalizing before with
  | nil =>
    rw [cut?] at h
    split at h
    · next hempty =>
      obtain ⟨rfl, rfl⟩ := Prod.mk.inj (Option.some.inj h)
      simpa using hempty
    · cases h
  | cons c rest ih =>
    rw [cut?] at h
    split at h
    · next heq =>
      obtain ⟨rfl, rfl⟩ := Prod.mk.inj (Option.some.inj h)
      rw [dropPrefix?_eq_some_iff.mp heq]
      rfl
    · obtain ⟨⟨before', after'⟩, hcut, heq⟩ := Option.map_eq_some_iff.mp h
      obtain ⟨rfl, rfl⟩ := Prod.mk.inj heq
      rw [ih hcut]
      rfl

/-- A text that holds no separator is not cut. -/
theorem cut?_eq_none_iff : cut? separator text = none ↔ ¬ separator <:+: text := by
  induction text with
  | nil =>
    rw [cut?]
    split
    · next hempty =>
      have hnil : separator = [] := List.isEmpty_iff.mp hempty
      simp [hnil]
    · next hempty => simpa using hempty
  | cons c rest ih =>
    rw [cut?, List.infix_cons_iff, not_or, ← ih]
    cases hdrop : dropPrefix? separator (c :: rest) with
    | some after =>
      have hstart : separator <+: c :: rest := ⟨after, (dropPrefix?_eq_some_iff.mp hdrop).symm⟩
      simp [hstart]
    | none =>
      have hstart : ¬ separator <+: c :: rest := by
        intro ⟨after, hafter⟩
        have hsome := dropPrefix?_eq_some_iff.mpr hafter.symm
        cases hdrop.symm.trans hsome
      simp [hstart]

/-- The separator at which a text is cut is the first. -/
theorem length_le_of_cut? {earlier later : List α} (h : cut? separator text = some (before, after))
    (htext : text = earlier ++ separator ++ later) : before.length ≤ earlier.length := by
  induction text generalizing before earlier with
  | nil =>
    have hparts := eq_of_cut? h
    have hbefore : before = [] := by simp_all
    simp [hbefore]
  | cons c rest ih =>
    rw [cut?] at h
    cases hdrop : dropPrefix? separator (c :: rest) with
    | some found =>
      rw [hdrop] at h
      have hbefore : before = [] := by simp_all
      simp [hbefore]
    | none =>
      rw [hdrop] at h
      obtain ⟨⟨before', after'⟩, hcut, heq⟩ := Option.map_eq_some_iff.mp h
      obtain ⟨rfl, rfl⟩ := Prod.mk.inj heq
      cases earlier with
      | nil =>
        have hsome := dropPrefix?_eq_some_iff.mpr htext
        cases hdrop.symm.trans hsome
      | cons d earlier =>
        have hrest : rest = earlier ++ separator ++ later := (List.cons.inj htext).2
        have hle := ih hcut hrest
        simp only [List.length_cons]
        omega

/-- A text is cut at the first separator in it. -/
theorem cut?_eq_some_iff : cut? separator text = some (before, after) ↔
    text = before ++ separator ++ after ∧
      ∀ earlier later, text = earlier ++ separator ++ later → before.length ≤ earlier.length := by
  constructor
  · intro h
    exact ⟨eq_of_cut? h, fun earlier later => length_le_of_cut? h⟩
  · intro h
    obtain ⟨htext, hfirst⟩ := h
    cases hcut : cut? separator text with
    | none =>
      have hinfix : separator <:+: text := ⟨before, after, htext.symm⟩
      exact absurd hinfix (cut?_eq_none_iff.mp hcut)
    | some parts =>
      obtain ⟨before', after'⟩ := parts
      have htext' := eq_of_cut? hcut
      have hle := hfirst before' after' htext'
      have hge := length_le_of_cut? hcut htext
      have hparts : before ++ (separator ++ after) = before' ++ (separator ++ after') := by
        rw [← List.append_assoc, ← List.append_assoc, ← htext, ← htext']
      obtain ⟨rfl, hafter⟩ := List.append_inj hparts (by omega)
      obtain rfl := List.append_cancel_left hafter
      rfl

/-- What stands behind a separator does not change what stands in front of the first. -/
theorem exists_cut?_append (head separator : List α) :
    ∃ before rest, ∀ after,
      cut? separator (head ++ separator ++ after) = some (before, rest ++ after) := by
  induction head with
  | nil =>
    refine ⟨[], [], fun after => cut?_eq_some_iff.mpr ⟨rfl, fun earlier later _ => ?_⟩⟩
    exact Nat.zero_le _
  | cons c head ih =>
    by_cases hstart : separator <+: c :: (head ++ separator)
    · obtain ⟨rest, hrest⟩ := hstart
      refine ⟨[], rest, fun after => cut?_eq_some_iff.mpr ⟨?_, fun earlier later _ => ?_⟩⟩
      · rw [List.nil_append, ← List.append_assoc, hrest]
        rfl
      · exact Nat.zero_le _
    · obtain ⟨before, rest, hcut⟩ := ih
      refine ⟨c :: before, rest, fun after => ?_⟩
      have hnone : dropPrefix? separator (c :: (head ++ separator ++ after)) = none := by
        rw [Option.eq_none_iff_forall_ne_some]
        intro found hfound
        have hfront : separator <+: (c :: (head ++ separator)) ++ after :=
          ⟨found, (dropPrefix?_eq_some_iff.mp hfound).symm⟩
        have hlength : separator.length ≤ (c :: (head ++ separator)).length := by
          simp only [List.length_cons, List.length_append]
          omega
        exact hstart (List.prefix_of_prefix_length_le hfront (List.prefix_append _ _) hlength)
      rw [List.cons_append, List.cons_append, cut?, hnone, hcut]
      rfl

/-- Nothing that holds the separator stands in front of the first. -/
theorem not_infix_of_cut? (hs : separator ≠ []) (h : cut? separator text = some (before, after)) :
    ¬ separator <:+: before := by
  intro hinfix
  obtain ⟨earlier, later, hbefore⟩ := hinfix
  have htext : text = earlier ++ separator ++ (later ++ (separator ++ after)) := by
    rw [eq_of_cut? h, ← hbefore]
    simp only [List.append_assoc]
  have hle := length_le_of_cut? h htext
  have hpos : 0 < separator.length := List.length_pos_iff.mpr hs
  have hlength : before.length = earlier.length + separator.length + later.length := by
    rw [← hbefore, List.length_append, List.length_append]
  omega

/-- Before the first `a` there is none. -/
theorem cut?_singleton_eq_some_iff :
    cut? [a] text = some (before, after) ↔ text = before ++ a :: after ∧ a ∉ before := by
  rw [cut?_eq_some_iff, List.append_assoc, List.singleton_append]
  refine and_congr_right fun htext => ⟨fun hfirst hmem => ?_, fun hfresh earlier later hlater => ?_⟩
  · obtain ⟨earlier, later, hbefore⟩ := List.append_of_mem hmem
    have hle := hfirst earlier (later ++ a :: after) (by rw [htext, hbefore]; simp)
    have hlength := congrArg List.length hbefore
    simp only [List.length_append, List.length_cons] at hlength
    omega
  · by_contra hlt
    have hearlier : earlier ++ [a] <+: text := ⟨later, hlater.symm⟩
    have hbefore : before <+: text := ⟨a :: after, htext.symm⟩
    have hlength : (earlier ++ [a]).length ≤ before.length := by
      rw [List.length_append, List.length_singleton]
      omega
    have hstart : earlier ++ [a] <+: before :=
      List.prefix_of_prefix_length_le hearlier hbefore hlength
    exact hfresh (hstart.subset (by simp))

omit [BEq α] [LawfulBEq α] in
/-- If a text starts as another does up to a separator that neither first word holds, the two start
with the same word. -/
theorem eq_of_words_prefix {v w rest rest' : List α} (hv : a ∉ v) (hw : a ∉ w)
    (h : v ++ a :: rest <+: w ++ a :: rest') : v = w := by
  induction v generalizing w with
  | nil =>
    cases w with
    | nil => rfl
    | cons c w =>
      obtain rfl : a = c := (List.cons_prefix_cons.mp h).1
      exact absurd List.mem_cons_self hw
  | cons c v ih =>
    cases w with
    | nil =>
      obtain rfl : c = a := (List.cons_prefix_cons.mp h).1
      exact absurd List.mem_cons_self hv
    | cons d w =>
      obtain ⟨rfl, hrest⟩ := List.cons_prefix_cons.mp h
      rw [ih (fun h => hv (List.mem_cons_of_mem _ h)) (fun h => hw (List.mem_cons_of_mem _ h))
        hrest]

theorem afterLast_append_cons (before : List α) (a : α) (after : List α) :
    afterLast a (before ++ a :: after) = afterLast a after := by
  have hstop : (a :: before.reverse).takeWhile (!· == a) = [] := by simp
  unfold afterLast
  rw [List.reverse_append, List.reverse_cons, List.append_assoc, List.singleton_append,
    List.takeWhile_append, hstop]
  split
  · next hall =>
    have htake := (List.takeWhile_prefix _).eq_of_length hall
    rw [List.append_nil, htake]
  · rfl

theorem afterLast_of_not_mem (h : a ∉ text) : afterLast a text = text := by
  have hkeep : ∀ c ∈ text.reverse, (!c == a) = true := by
    intro c hc
    have hne : c ≠ a := by
      rintro rfl
      exact h (List.mem_reverse.mp hc)
    simpa using hne
  unfold afterLast
  rw [List.takeWhile_eq_self_iff.mpr hkeep, List.reverse_reverse]

/-- What stands in front of the text after the last `a` ends in `a`, if it is anything. -/
theorem exists_eq_afterLast (a : α) (text : List α) :
    ∃ before, (before = [] ∨ ∃ rest, before = rest ++ [a]) ∧
      text = before ++ afterLast a text ∧ a ∉ afterLast a text := by
  by_cases hmem : a ∈ text
  · -- The first `a` from behind is the last one.
    obtain ⟨after, before, hrev, hfirst⟩ :=
      List.eq_append_cons_of_mem (List.mem_reverse.mpr hmem)
    have hfresh : a ∉ after.reverse := mt List.mem_reverse.mp hfirst
    have htext : text = before.reverse ++ a :: after.reverse := by
      rw [← List.reverse_reverse text, hrev]
      simp
    have hlast : afterLast a text = after.reverse := by
      rw [htext, afterLast_append_cons, afterLast_of_not_mem hfresh]
    rw [hlast]
    exact ⟨before.reverse ++ [a], Or.inr ⟨_, rfl⟩, by simpa using htext, hfresh⟩
  · rw [afterLast_of_not_mem hmem]
    exact ⟨[], Or.inl rfl, rfl, hmem⟩

end TokenAudit.Text
