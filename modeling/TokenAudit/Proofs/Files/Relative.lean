import Mathlib.Data.List.TakeDrop
import TokenAudit.Proofs.Files.Locations

/-! What lies below a directory is called by its names from there, however the directory is
spelled. -/

namespace TokenAudit.Path

variable {names front rest : List String} {cs r : List Char}

/-- The text of names with separators between them. -/
def joined (names : List String) : List Char := ("/".intercalate names).toList

theorem joined_nil : joined [] = [] := rfl

theorem joined_singleton (n : String) : joined [n] = n.toList := by
  simp [joined]

theorem joined_cons (n : String) (hnames : names ≠ []) :
    joined (n :: names) = n.toList ++ '/' :: joined names := by
  obtain ⟨m, more, rfl⟩ := List.exists_cons_of_ne_nil hnames
  simp [joined, String.intercalate_cons_cons]

theorem joined_append (hfront : front ≠ []) (hrest : rest ≠ []) :
    joined (front ++ rest) = joined front ++ '/' :: joined rest := by
  induction front with
  | nil => exact absurd rfl hfront
  | cons n front ih =>
    have hbehind : front ++ rest ≠ [] := by simp [hrest]
    rw [List.cons_append, joined_cons n hbehind]
    by_cases hnil : front = []
    · rw [hnil, List.nil_append, joined_singleton]
    · rw [ih hnil, joined_cons n hnil, List.append_assoc, List.cons_append]

theorem Tight.trimFront (h : Tight cs) : trimFront cs = cs := by
  fun_cases Path.trimFront cs with
  | case1 => rfl
  | case2 => exact absurd rfl h.ne_here
  | case3 r => exact absurd rfl (h.ne_separator r)
  | case4 r => exact absurd rfl (h.ne_skipped r)
  | case5 => rfl

theorem Tight.trimBack (h : Tight cs) : trimBack cs = cs := by
  fun_cases Path.trimBack cs with
  | case1 => rfl
  | case2 => exact absurd rfl h.ne_here
  | case3 r => exact absurd rfl (h.ne_separator r)
  | case4 r => exact absurd rfl (h.ne_skipped r)
  | case5 => rfl

theorem tight_joined (hn : ∀ n ∈ names, IsName n) : Tight (joined names) := by
  cases names with
  | nil => exact tight_nil
  | cons n names =>
    have hname := hn n List.mem_cons_self
    have htight := tight_append hname.ne_empty hname.ne_here hname.no_separator
    by_cases hnil : names = []
    · simpa [hnil, joined_singleton] using htight []
    · rw [joined_cons n hnil]
      exact htight _

theorem tight_reverse_joined (hn : ∀ n ∈ names, IsName n) : Tight (joined names).reverse := by
  rcases List.eq_nil_or_concat' names with rfl | ⟨front, n, rfl⟩
  · exact tight_nil
  · have hname := hn n (by simp)
    have hne : n.toList.reverse ≠ [] := by simpa using hname.ne_empty
    have hhere : n.toList.reverse ≠ ['.'] := fun h => hname.ne_here (by simpa using h)
    have hsep : '/' ∉ n.toList.reverse := by simpa using hname.no_separator
    by_cases hfront : front = []
    · simpa [hfront, joined_singleton] using tight_append hne hhere hsep []
    · rw [joined_append hfront (by simp), joined_singleton]
      simpa using tight_append hne hhere hsep ('/' :: (joined front).reverse)

theorem trimEnd_joined (hn : ∀ n ∈ names, IsName n) : trimEnd (joined names) = joined names := by
  rw [trimEnd, (tight_reverse_joined hn).trimBack, List.reverse_reverse]

/-- Separators in front of a text are no part of what is dropped from it. -/
theorem trimFront_dropComponents_separator (n : Nat) (cs : List Char) :
    trimFront (dropComponents n ('/' :: cs)) = trimFront (dropComponents n cs) := by
  cases n with
  | zero => rfl
  | succ n => rfl

theorem trimFront_dropComponents_here (n : Nat) (cs : List Char) :
    trimFront (dropComponents n ('.' :: '/' :: cs)) = trimFront (dropComponents n cs) := by
  cases n with
  | zero => rfl
  | succ n => rfl

/-- A text that starts with a proper part is that part alone, or has a separator behind it. -/
theorem Tight.exists_part (h : Tight cs) (hne : cs ≠ []) :
    ∃ part, part ≠ [] ∧ part ≠ ['.'] ∧ '/' ∉ part ∧
      (cs = part ∨ ∃ rest, cs = part ++ '/' :: rest) := by
  have hsplit := List.takeWhile_append_dropWhile (p := (· != '/')) (l := cs)
  have hhead := List.head?_dropWhile_not (· != '/') cs
  have hpart : '/' ∉ cs.takeWhile (· != '/') := fun hmem => by
    simpa using List.all_eq_true.mp List.all_takeWhile '/' hmem
  generalize cs.takeWhile (· != '/') = part at hsplit hpart
  have hshape : cs = part ∨ ∃ rest, cs = part ++ '/' :: rest := by
    cases hdrop : cs.dropWhile (· != '/') with
    | nil => exact Or.inl (by rw [← hsplit, hdrop, List.append_nil])
    | cons c rest =>
      obtain rfl : c = '/' := by simpa [hdrop] using hhead
      exact Or.inr ⟨rest, by rw [← hsplit, hdrop]⟩
  refine ⟨part, ?_, ?_, hpart, hshape⟩
  · rintro rfl
    obtain rfl | ⟨rest, rfl⟩ := hshape
    · exact hne rfl
    · exact h.ne_separator rest rfl
  · rintro rfl
    obtain rfl | ⟨rest, rfl⟩ := hshape
    · exact h.ne_here rfl
    · exact h.ne_skipped rest rfl

theorem dropPart_append {part : List Char} (hne : part ≠ []) (hhere : part ≠ ['.'])
    (hsep : '/' ∉ part) (hr : r = [] ∨ ∃ s, r = '/' :: s) : dropPart (part ++ r) = r := by
  rw [dropPart, (tight_append hne hhere hsep r).trimFront, List.dropWhile_append_of_pos]
  · rcases hr with rfl | ⟨s, rfl⟩ <;> rfl
  · intro c hc
    simpa using fun h : c = '/' => hsep (h ▸ hc)

theorem length_ofParts_part {part : List Char} (hne : part ≠ []) (hhere : part ≠ ['.']) :
    (ofParts [part]).length = 1 := by
  by_cases hparent : part = ['.', '.'] <;> simp [ofParts, hne, hhere, hparent]

/-- Dropped as often as it has components, a text in front of a separator is gone. -/
theorem trimFront_dropComponents_parts (cs : List Char) (hr : r = [] ∨ ∃ s, r = '/' :: s) :
    trimFront (dropComponents (ofParts (parts cs)).length (cs ++ r)) = trimFront r := by
  -- On the length: a part at the start says nothing or is dropped, and a shorter text is left.
  induction hlength : cs.length using Nat.strongRecOn generalizing cs with
  | ind length ih =>
    fun_cases trimFront cs with
    | case1 => rfl
    | case2 => rcases hr with rfl | ⟨s, rfl⟩ <;> rfl
    | case3 rest =>
      have hparts : ofParts (parts ('/' :: rest)) = ofParts (parts rest) := rfl
      have hshorter : rest.length < length := by
        rw [← hlength, List.length_cons]
        omega
      rw [hparts, List.cons_append, trimFront_dropComponents_separator]
      exact ih rest.length hshorter rest rfl
    | case4 rest =>
      have hparts : ofParts (parts ('.' :: '/' :: rest)) = ofParts (parts rest) := rfl
      have hshorter : rest.length < length := by
        rw [← hlength, List.length_cons, List.length_cons]
        omega
      rw [hparts, List.cons_append, List.cons_append, trimFront_dropComponents_here]
      exact ih rest.length hshorter rest rfl
    | case5 _ hnil hhere hseparator hskipped =>
      have htight : Tight cs := ⟨hhere, hseparator, hskipped⟩
      obtain ⟨part, hne, hdot, hsep, hshape⟩ := htight.exists_part hnil
      rcases hshape with rfl | ⟨rest, rfl⟩
      · rw [parts_of_no_separator hsep, length_ofParts_part hne hdot, dropComponents,
          dropComponents, dropPart_append hne hdot hsep hr]
      · have hparts : (ofParts (parts (part ++ '/' :: rest))).length =
            (ofParts (parts rest)).length + 1 := by
          rw [parts_append, parts_of_no_separator hsep, ofParts_append, List.length_append,
            length_ofParts_part hne hdot, Nat.add_comm]
        have hshorter : rest.length < length := by
          rw [← hlength, List.length_append, List.length_cons]
          omega
        rw [hparts, List.append_assoc, List.cons_append, dropComponents,
          dropPart_append hne hdot hsep (Or.inr ⟨_, rfl⟩), trimFront_dropComponents_separator]
        exact ih rest.length hshorter rest rfl

theorem ofParts_joined (hn : ∀ n ∈ names, IsName n) :
    ofParts (parts (joined names)) = names.map .name := by
  induction names with
  | nil => rfl
  | cons n names ih =>
    obtain ⟨hname, hrest⟩ := List.forall_mem_cons.mp hn
    have hone : ofParts (parts n.toList) = [.name n] := by
      rw [parts_of_no_separator hname.no_separator, ofParts_name hname]
    by_cases hnil : names = []
    · subst hnil
      rw [joined_singleton, hone]
      rfl
    · rw [joined_cons n hnil, parts_append, ofParts_append, ih hrest, hone]
      rfl

/-- Behind the first names of a text of names the text of the others is left. -/
theorem trimFront_dropComponents_joined (hfront : ∀ n ∈ front, IsName n)
    (hrest : ∀ n ∈ rest, IsName n) :
    trimFront (dropComponents front.length (joined (front ++ rest))) = joined rest := by
  have hlength : (ofParts (parts (joined front))).length = front.length := by
    rw [ofParts_joined hfront, List.length_map]
  by_cases hnil : front = []
  · subst hnil
    exact (tight_joined hrest).trimFront
  by_cases hlast : rest = []
  · subst hlast
    have hgone := trimFront_dropComponents_parts (joined front) (Or.inl rfl)
    rw [hlength, List.append_nil] at hgone
    rw [List.append_nil, hgone]
    rfl
  · have hgone := trimFront_dropComponents_parts (joined front) (Or.inr ⟨joined rest, rfl⟩)
    rw [hlength] at hgone
    rw [joined_append hnil hlast, hgone]
    exact (tight_joined hrest).trimFront

theorem trimFront_dropComponents_append (cs r : List Char) :
    trimFront (dropComponents (ofParts (parts cs)).length (cs ++ separator cs ++ r)) =
      trimFront r := by
  have hgone : ∀ cs, trimFront (dropComponents (ofParts (parts cs)).length (cs ++ '/' :: r)) =
      trimFront r := fun cs => trimFront_dropComponents_parts cs (Or.inr ⟨r, rfl⟩)
  rcases List.eq_nil_or_concat' cs with rfl | ⟨before, c, rfl⟩
  · rfl
  by_cases hc : c = '/'
  · subst hc
    have htext : before ++ ['/'] ++ separator (before ++ ['/']) ++ r = before ++ '/' :: r := by
      simp [separator]
    have hparts : ofParts (parts (before ++ ['/'])) = ofParts (parts before) := by
      have hblank : ofParts (parts []) = [] := rfl
      rw [parts_append, ofParts_append, hblank, List.append_nil]
    rw [htext, hparts, hgone]
  · have htext : before ++ [c] ++ separator (before ++ [c]) ++ r = (before ++ [c]) ++ '/' :: r := by
      simp [separator, hc]
    rw [htext, hgone]

theorem toList_below (hn : ∀ n ∈ names, IsName n) (hne : names ≠ []) (p : Path) :
    (p.below names).text.toList = p.text.toList ++ separator p.text.toList ++ joined names := by
  induction names generalizing p with
  | nil => exact absurd rfl hne
  | cons n names ih =>
    obtain ⟨hname, hrest⟩ := List.forall_mem_cons.mp hn
    have hbelow : p.below (n :: names) = (p.child n).below names := rfl
    by_cases hnil : names = []
    · subst hnil
      rw [joined_singleton]
      exact toList_child hname p
    · obtain ⟨front, c, hlast⟩ := (List.eq_nil_or_concat' n.toList).resolve_left hname.ne_empty
      have hc : c ≠ '/' := fun h => hname.no_separator (by simp [hlast, h])
      have hsep : separator (p.child n).text.toList = ['/'] := by
        rw [toList_child hname, hlast]
        simp [separator, hc]
      rw [hbelow, ih hrest hnil, hsep, toList_child hname]
      simp [joined_cons n hnil]

theorem Tight.eq_nil_of_ofParts (h : Tight cs) (hparts : ofParts (parts cs) = []) : cs = [] := by
  have hgone := trimFront_dropComponents_append cs []
  rw [hparts, List.length_nil, dropComponents, (h.append tight_nil).trimFront] at hgone
  exact (List.append_eq_nil_iff.mp (List.append_eq_nil_iff.mp hgone).1).1

theorem eq_nil_of_components_eq_nil {p : Path} (h : p.components = []) : p.text.toList = [] := by
  unfold components at h
  generalize p.text.toList = cs at h ⊢
  fun_cases lead cs with
  | case1 r => simp [lead, leadComponents] at h
  | case2 => simp [lead, leadComponents] at h
  | case3 r => simp [lead, leadComponents] at h
  | case4 _ hroot hhere hstart =>
    have htight : Tight cs := ⟨hhere, hroot, hstart⟩
    rw [htight.lead] at h
    exact htight.eq_nil_of_ofParts h

/-- Behind the components of a directory the names of what lies below it are left. -/
theorem stripPrefix?_below (hn : ∀ n ∈ names, IsName n) (hne : names ≠ []) (p : Path) :
    stripPrefix? p (p.below names) = some ⟨"/".intercalate names⟩ := by
  have hinside : p.components.isPrefixOf (p.below names).components = true := by
    rw [List.isPrefixOf_iff_prefix, components_below hn]
    exact List.prefix_append _ _
  have hjoined : String.ofList (trimEnd (trimFront (joined names))) = "/".intercalate names := by
    rw [(tight_joined hn).trimFront, trimEnd_joined hn, joined, String.ofList_toList]
  have htext := toList_below hn hne p
  rw [stripPrefix?, if_pos hinside]
  by_cases hnil : p.components = []
  · rw [eq_nil_of_components_eq_nil hnil] at htext
    rw [hnil, htext]
    rw [(tight_joined hn).trimFront] at hjoined
    simpa [separator] using congrArg Path.mk hjoined
  · rw [List.isEmpty_eq_false_iff.mpr hnil, if_neg Bool.false_ne_true, htext]
    unfold components
    generalize p.text.toList = cs
    fun_cases lead cs with
    | case1 r =>
      have hsplit : '/' :: r ++ separator ('/' :: r) ++ joined names =
          '/' :: (r ++ separator r ++ joined names) := by
        cases r <;> simp [separator]
      rw [hsplit]
      simp only [lead, leadComponents, List.length_append, List.length_singleton,
        Nat.add_sub_cancel_left]
      rw [trimFront_dropComponents_append, hjoined]
    | case2 =>
      have hsplit : ['.'] ++ separator ['.'] ++ joined names = '.' :: '/' :: joined names := rfl
      have hblank : ofParts (parts []) = [] := rfl
      rw [hsplit]
      simp only [lead, leadComponents, hblank, List.append_nil, List.length_singleton, Nat.sub_self,
        dropComponents, trimFront]
      rw [hjoined]
    | case3 r =>
      have hsplit : '.' :: '/' :: r ++ separator ('.' :: '/' :: r) ++ joined names =
          '.' :: '/' :: (r ++ separator ('/' :: r) ++ joined names) := by
        simp [separator]
      have hgone := trimFront_dropComponents_append ('/' :: r) (joined names)
      rw [hsplit]
      simp only [lead, leadComponents, List.length_append, List.length_singleton,
        Nat.add_sub_cancel_left]
      rw [← hjoined, ← hgone]
      rfl
    | case4 _ hroot hhere hstart =>
      have htight : Tight cs := ⟨hhere, hroot, hstart⟩
      rw [(htight.append (tight_joined hn)).lead]
      simp only [leadComponents, List.nil_append, List.length_nil, Nat.sub_zero]
      rw [trimFront_dropComponents_append, hjoined]

end TokenAudit.Path
