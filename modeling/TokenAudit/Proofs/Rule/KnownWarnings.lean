import TokenAudit.Proofs.Rule.AllowList

/-! What a list of known warnings makes of findings. A message is known by what stands in front of
its first separator, and the more the list allows, the more warnings become notes. -/

namespace TokenAudit

/-- The finding as a note. -/
def Finding.noted (f : Finding) : Finding := { f with severity := .info }

namespace AllowList

variable {l l' : AllowList} {s : AllowSettings} {start : String} {starts : List String}
variable {message : String} {head : List Char} {f : Finding} {fs : List Finding}

/-- The list with `starts` allowed one after another. -/
def allowAll (l : AllowList) (starts : List String) : AllowList := starts.foldl allow l

/-- The settings allow the start, or one of the later calls does. -/
def Allowed (s : AllowSettings) (starts : List String) (start : String) : Prop :=
  s.builtin = true ∧ start ∈ builtin.entries ∨ start ∈ s.extra ∨ start ∈ starts

theorem mem_allow_iff {new : String} :
    start ∈ (l.allow new).entries ↔ start ∈ l.entries ∨ start = new := by
  unfold allow
  split
  · next hmem =>
    refine ⟨Or.inl, fun h => h.elim id fun heq => ?_⟩
    rwa [heq]
  · simp

theorem mem_allowAll_iff :
    start ∈ (l.allowAll starts).entries ↔ start ∈ l.entries ∨ start ∈ starts := by
  induction starts generalizing l with
  | nil => simp [allowAll]
  | cons new starts ih =>
    have hstep : l.allowAll (new :: starts) = (l.allow new).allowAll starts := rfl
    rw [hstep, ih, mem_allow_iff, List.mem_cons, or_assoc]

theorem mem_ofSettings_iff :
    start ∈ (ofSettings s).entries ↔
      s.builtin = true ∧ start ∈ builtin.entries ∨ start ∈ s.extra := by
  have hsettings : ofSettings s = (if s.builtin then builtin else empty).allowAll s.extra := rfl
  rw [hsettings, mem_allowAll_iff]
  cases s.builtin <;> simp [empty]

theorem mem_entries_iff_allowed :
    start ∈ ((ofSettings s).allowAll starts).entries ↔ Allowed s starts start := by
  rw [mem_allowAll_iff, mem_ofSettings_iff, Allowed, or_assoc]

/-- The head of a message is what stands in front of its first separator, and all of it if it has
no separator. -/
def IsHead (message head : List Char) : Prop :=
  (∃ rest, message = head ++ separator.toList ++ rest ∧
    ∀ earlier later, message = earlier ++ separator.toList ++ later →
      head.length ≤ earlier.length) ∨
    head = message ∧ ¬ separator.toList <:+: message

theorem toList_key_eq_iff : (key message).toList = head ↔ IsHead message.toList head := by
  unfold key IsHead
  cases hcut : Text.cut? separator.toList message.toList with
  | none =>
    have hnone : ¬ separator.toList <:+: message.toList := Text.cut?_eq_none_iff.mp hcut
    constructor
    · intro hkey
      exact Or.inr ⟨hkey.symm, hnone⟩
    · intro hhead
      rcases hhead with ⟨rest, htext, -⟩ | ⟨hhead, -⟩
      · exact absurd ⟨head, rest, htext.symm⟩ hnone
      · exact hhead.symm
  | some parts =>
    obtain ⟨before, after⟩ := parts
    have hinfix : separator.toList <:+: message.toList :=
      ⟨before, after, (Text.eq_of_cut? hcut).symm⟩
    rw [String.toList_ofList]
    constructor
    · intro hhead
      rw [← hhead]
      exact Or.inl ⟨after, Text.cut?_eq_some_iff.mp hcut⟩
    · intro hhead
      rcases hhead with ⟨rest, hfirst⟩ | ⟨-, hnone⟩
      · have hcut' := Text.cut?_eq_some_iff.mpr hfirst
        exact (Prod.mk.inj (Option.some.inj (hcut.symm.trans hcut'))).1
      · exact absurd hinfix hnone

theorem covers_iff_head : l.covers message = true ↔
    ∃ start ∈ l.entries, ∃ head, IsHead message.toList head ∧ start.toList <+: head := by
  simp only [covers_iff, ← toList_key_eq_iff, exists_eq_left']

/-- The explanation behind a separator is no part of the key. -/
theorem key_append (head explanation explanation' : String) :
    key (head ++ separator ++ explanation) = key (head ++ separator ++ explanation') := by
  obtain ⟨before, rest, hcut⟩ := Text.exists_cut?_append head.toList separator.toList
  have hkey (t : String) : key (head ++ separator ++ t) = String.ofList before := by
    rw [key, String.toList_append, String.toList_append, hcut]
  rw [hkey, hkey]

theorem not_infix_key : ¬ separator.toList <:+: (key message).toList := by
  unfold key
  cases hcut : Text.cut? separator.toList message.toList with
  | none => exact Text.cut?_eq_none_iff.mp hcut
  | some parts =>
    have hseparator : separator.toList ≠ [] := by decide
    rw [String.toList_ofList]
    exact Text.not_infix_of_cut? hseparator hcut

theorem covers_of_separated (h : ∀ start ∈ l.entries, separator.toList <:+: start.toList)
    (message : String) : l.covers message = false := by
  rw [← Bool.not_eq_true, covers_iff]
  intro hcovers
  obtain ⟨start, hstart, hkey⟩ := hcovers
  have hinfix : separator.toList <:+: (key message).toList := (h start hstart).trans hkey.isInfix
  exact not_infix_key hinfix

theorem isNote_allowAll (starts : List String) (h : l.isNote f = true) :
    (l.allowAll starts).isNote f = true := by
  unfold isNote at h ⊢
  rw [Bool.and_eq_true, covers_iff] at h ⊢
  obtain ⟨hwarn, start, hstart, hkey⟩ := h
  exact ⟨hwarn, start, mem_allowAll_iff.mpr (Or.inl hstart), hkey⟩

theorem isNote_iff : l.isNote f = true ↔ f.severity = .warn ∧ l.covers f.message = true := by
  rw [isNote, Bool.and_eq_true, decide_eq_true_eq]

/-- From one sorting of findings to another some of those that were kept become notes. All others
stay what they are, in the same order. -/
structure Moves (old new : List Finding × List Finding) (moved : List Finding) : Prop where
  kept : new.1.Sublist old.1
  notes : old.2.Sublist new.2
  moved_kept : moved.Sublist old.1
  moved_notes : (moved.map Finding.noted).Sublist new.2
  kept_perm : old.1.Perm (new.1 ++ moved)
  notes_perm : new.2.Perm (old.2 ++ moved.map Finding.noted)

/-- What is moved are the findings that the first list keeps and the second knows. -/
theorem moves_of_isNote (h : ∀ f, l.isNote f = true → l'.isNote f = true) (fs : List Finding) :
    Moves (l.split fs) (l'.split fs) ((l.split fs).1.filter l'.isNote) := by
  have hkept : (l'.split fs).1 = (l.split fs).1.filter (!l'.isNote ·) := by
    unfold split
    rw [List.filter_filter]
    refine List.filter_congr fun f _ => ?_
    have hf := h f
    cases hnote : l.isNote f <;> simp_all
  have hold : (l.split fs).2 = ((fs.filter l'.isNote).filter l.isNote).map Finding.noted := by
    unfold split
    rw [List.filter_filter]
    refine congrArg (List.map Finding.noted) (List.filter_congr fun f _ => ?_)
    have hf := h f
    cases hnote : l.isNote f <;> simp_all
  have hmoved : (l.split fs).1.filter l'.isNote = (fs.filter l'.isNote).filter (!l.isNote ·) := by
    unfold split
    rw [List.filter_filter, List.filter_filter]
    exact List.filter_congr fun f _ => Bool.and_comm _ _
  have hnew : (l'.split fs).2 = (fs.filter l'.isNote).map Finding.noted := rfl
  constructor
  case kept =>
    rw [hkept]
    exact List.filter_sublist
  case notes =>
    rw [hold, hnew]
    exact List.filter_sublist.map _
  case moved_kept => exact List.filter_sublist
  case moved_notes =>
    rw [hmoved, hnew]
    exact List.filter_sublist.map _
  case kept_perm =>
    rw [hkept]
    exact ((List.filter_append_perm l'.isNote _).symm.trans List.perm_append_comm)
  case notes_perm =>
    rw [hold, hmoved, hnew, ← List.map_append]
    exact (List.filter_append_perm l.isNote _).symm.map _

/-- Nothing that is kept becomes a note when it is sorted again. -/
theorem split_kept (l : AllowList) (fs : List Finding) :
    l.split (l.split fs).1 = ((l.split fs).1, []) := by
  have hkept : ∀ f ∈ (l.split fs).1, l.isNote f = false := by
    intro f hf
    simpa using (List.mem_filter.mp hf).2
  have hfirst : (l.split fs).1.filter (!l.isNote ·) = (l.split fs).1 :=
    List.filter_eq_self.mpr fun f hf => by simp [hkept f hf]
  have hsecond : (l.split fs).1.filter l.isNote = [] :=
    List.filter_eq_nil_iff.mpr fun f hf => by simp [hkept f hf]
  rw [split, hfirst, hsecond]
  rfl

/-- How a list sorts findings that knows a message by the `allowed` starts. -/
structure Sorts (allowed : String → Prop) (l : AllowList) : Prop where
  covers_iff : ∀ message, l.covers message = true ↔
    ∃ start head, allowed start ∧ IsHead message.toList head ∧ start.toList <+: head
  explanation : ∀ head t₁ t₂,
    l.covers (head ++ separator ++ t₁) = l.covers (head ++ separator ++ t₂)
  separated : (∀ start ∈ l.entries, separator.toList <:+: start.toList) →
    ∀ message, l.covers message = false
  kept : ∀ fs, (l.split fs).1 =
    fs.filter fun f => ¬ (f.severity = .warn ∧ l.covers f.message = true)
  notes : ∀ fs, (l.split fs).2 =
    (fs.filter fun f => f.severity = .warn ∧ l.covers f.message = true).map Finding.noted
  moves : ∀ starts fs, ∃ moved, Moves (l.split fs) ((l.allowAll starts).split fs) moved
  settled : ∀ fs, l.split (l.split fs).1 = ((l.split fs).1, [])

/-- A list made of any settings and any further starts knows a message by its head alone. It knows
none if all starts hold a separator. The warnings that it knows become notes and all else is kept,
each in its order; more starts only make notes of what was kept, and what is kept stays kept. -/
theorem sorts_allowAll (s : AllowSettings) (starts : List String) :
    Sorts (Allowed s starts) ((ofSettings s).allowAll starts) := by
  constructor
  case covers_iff =>
    intro message
    simp only [covers_iff_head, mem_entries_iff_allowed]
    constructor
    · intro h
      obtain ⟨start, hallowed, head, hhead, hstart⟩ := h
      exact ⟨start, head, hallowed, hhead, hstart⟩
    · intro h
      obtain ⟨start, head, hallowed, hhead, hstart⟩ := h
      exact ⟨start, hallowed, head, hhead, hstart⟩
  case explanation =>
    intro head t₁ t₂
    rw [covers, covers, key_append head t₁ t₂]
  case separated => exact covers_of_separated
  case kept =>
    intro fs
    refine List.filter_congr fun f _ => Bool.eq_iff_iff.mpr ?_
    rw [decide_eq_true_eq, ← isNote_iff, Bool.not_eq_true', Bool.not_eq_true]
  case notes =>
    intro fs
    refine congrArg (List.map Finding.noted) (List.filter_congr fun f _ => Bool.eq_iff_iff.mpr ?_)
    rw [decide_eq_true_eq, isNote_iff]
  case moves =>
    intro more fs
    exact ⟨_, moves_of_isNote (fun f => isNote_allowAll more) fs⟩
  case settled => exact split_kept _

/-- The first separator may begin where the head seems to end. -/
example : (empty.allow "C1: A —").covers "C1: A — — not proven" = false := by decide +kernel

end AllowList

end TokenAudit
