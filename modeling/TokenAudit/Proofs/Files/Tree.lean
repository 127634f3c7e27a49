import TokenAudit.Files.Tree
import TokenAudit.Proofs.Files.Path
import TokenAudit.Proofs.Lists

/-! What stands at the locations below a directory, and what is read there by path. -/

namespace TokenAudit

theorem bind_eq_ok {ε α β : Type} {x : Except ε α} {f : α → Except ε β} {b : β} :
    (x >>= f) = .ok b ↔ ∃ a, x = .ok a ∧ f a = .ok b := by
  cases x <;> simp [bind, Except.bind]

theorem mapError_eq_ok {ε ε' α : Type} {x : Except ε α} {f : ε → ε'} {a : α} :
    x.mapError f = .ok a ↔ x = .ok a := by
  cases x <;> simp [Except.mapError]

namespace Entry

/-- As in every file system, the entries of a directory are called by names, and no two of them by
the same. -/
inductive WellFormed : Entry → Prop
  | file (bytes : List UInt8) : WellFormed (.file bytes)
  | link (target : String) : WellFormed (.link target)
  | directory {children : List (String × Entry)} (hnodup : (children.map (·.1)).Nodup)
      (hnames : ∀ c ∈ children, IsName c.1) (hchildren : ∀ c ∈ children, WellFormed c.2) :
      WellFormed (.directory children)

variable {e : Entry} {names : List String} {bytes : List UInt8}

theorem at?_append (e : Entry) (names more : List String) :
    e.at? (names ++ more) = (e.at? names).bind (·.at? more) := by
  induction names generalizing e with
  | nil => rfl
  | cons n names ih =>
    simp only [List.cons_append, at?]
    cases e.children.lookup n with
    | none => rfl
    | some child => exact ih child

/-- The names on the way to an entry are names, and the entry is well formed. -/
theorem WellFormed.at? (hw : e.WellFormed) {e' : Entry} (he : e.at? names = some e') :
    (∀ n ∈ names, IsName n) ∧ e'.WellFormed := by
  induction names generalizing e with
  | nil =>
    obtain rfl := Option.some.inj he
    exact ⟨by simp, hw⟩
  | cons n names ih =>
    cases hw with
    | file | link => simp [Entry.at?, children] at he
    | @directory cs hnodup hnames hchildren =>
      simp only [Entry.at?, children] at he
      split at he
      · next child hc =>
        have hmem := (lookup_eq_some_iff_mem hnodup).mp hc
        obtain ⟨hrest, he'⟩ := ih (hchildren _ hmem) he
        exact ⟨List.forall_mem_cons.mpr ⟨hnames _ hmem, hrest⟩, he'⟩
      · cases he

/-- A file at a location of more than one name stands below a directory. -/
theorem at?_cons_eq_file {n : String} :
    e.at? (n :: names) = some (.file bytes) ↔
      ∃ children child, e = .directory children ∧ children.lookup n = some child ∧
        child.at? names = some (.file bytes) := by
  cases e with
  | file | link => simp [Entry.at?, children]
  | directory cs =>
    simp only [Entry.at?, children]
    cases hl : cs.lookup n <;> simp [hl]

end Entry

namespace FileTree

variable {t : FileTree} {location names rest : List String} {place : Place} {e : Entry}

/-- The entry at `location` is a directory. -/
def DirectoryAt (t : FileTree) (location : List String) : Prop :=
  ∃ children, t.entry? location = some (.directory children)

theorem entry?_append (he : t.entry? location = some e) (names : List String) :
    t.entry? (location ++ names) = e.at? names := by
  unfold FileTree.entry? at he ⊢
  rw [Entry.at?_append, he, Option.bind_some]

/-- A name that is neither skipped nor leads up, and is not too long. -/
structure Plain (name : String) : Prop where
  ne_skipped : ¬ (name = "" ∨ name = ".")
  ne_parent : ¬ name = ".."
  size_le : ¬ maxName < name.utf8ByteSize

section Steps

variable {links : Nat} {name target : String} {bytes : List UInt8}

theorem follow_skip (h : name = "" ∨ name = ".") :
    t.follow links location (name :: rest) = t.follow links location rest := by
  rw [FileTree.follow, if_pos h]

theorem follow_parent :
    t.follow links location (".." :: rest) = t.follow links location.dropLast rest := by
  rw [FileTree.follow, if_neg (by decide), if_pos rfl]

theorem follow_long (hs : ¬ (name = "" ∨ name = ".")) (hp : ¬ name = "..")
    (hlong : maxName < name.utf8ByteSize) :
    t.follow links location (name :: rest) = .error .nameTooLong := by
  rw [FileTree.follow, if_neg hs, if_neg hp, if_pos hlong]

theorem follow_none (hn : Plain name) (he : t.entry? (location ++ [name]) = none)
    (hr : rest ≠ []) : t.follow links location (name :: rest) = .error .notFound := by
  rw [FileTree.follow, if_neg hn.ne_skipped, if_neg hn.ne_parent, if_neg hn.size_le]
  simp [he, hr]

theorem follow_none_last (hn : Plain name) (he : t.entry? (location ++ [name]) = none) :
    t.follow links location [name] = .ok ⟨location ++ [name], false⟩ := by
  rw [FileTree.follow, if_neg hn.ne_skipped, if_neg hn.ne_parent, if_neg hn.size_le]
  simp [he]

theorem follow_enter (hn : Plain name) (hd : t.DirectoryAt (location ++ [name])) :
    t.follow links location (name :: rest) = t.follow links (location ++ [name]) rest := by
  obtain ⟨children, hd⟩ := hd
  rw [FileTree.follow, if_neg hn.ne_skipped, if_neg hn.ne_parent, if_neg hn.size_le]
  simp only [hd]

theorem follow_file (hn : Plain name) (hf : t.entry? (location ++ [name]) = some (.file bytes)) :
    t.follow links location (name :: rest) =
      if rest.isEmpty then .ok ⟨location ++ [name], true⟩ else .error .notDirectory := by
  rw [FileTree.follow, if_neg hn.ne_skipped, if_neg hn.ne_parent, if_neg hn.size_le]
  simp only [hf]

theorem follow_link_zero (hn : Plain name)
    (hl : t.entry? (location ++ [name]) = some (.link target)) :
    t.follow 0 location (name :: rest) = .error .tooManyLinks := by
  rw [FileTree.follow, if_neg hn.ne_skipped, if_neg hn.ne_parent, if_neg hn.size_le]
  simp only [hl]

theorem follow_link (hn : Plain name)
    (hl : t.entry? (location ++ [name]) = some (.link target)) :
    t.follow (links + 1) location (name :: rest) =
      if target.isEmpty then .error .notFound
      else t.follow links (if (⟨target⟩ : Path).isAbsolute then [] else location)
        ((Path.parts target.toList).map String.ofList ++ rest) := by
  rw [FileTree.follow, if_neg hn.ne_skipped, if_neg hn.ne_parent, if_neg hn.size_le]
  simp only [hl]

end Steps

/-- What one name does: either it leads to another place, from which the rest is followed, or
nothing can be followed behind it and it does not lead to a directory. -/
theorem follow_cons_cases (t : FileTree) (links : Nat) (location : List String) (name : String) :
    (∃ links' location' names, (links' < links ∨ links' = links ∧ names = []) ∧
      ∀ rest, t.follow links location (name :: rest) = t.follow links' location' (names ++ rest)) ∨
    ((∃ e, ∀ rest, rest ≠ [] → t.follow links location (name :: rest) = .error e) ∧
      ∀ place, t.follow links location [name] = .ok place → place.present = true →
        ¬ t.DirectoryAt place.location) := by
  by_cases hskip : name = "" ∨ name = "."
  · exact Or.inl ⟨links, location, [], Or.inr ⟨rfl, rfl⟩, fun rest => follow_skip hskip⟩
  by_cases hparent : name = ".."
  · subst hparent
    exact Or.inl ⟨links, location.dropLast, [], Or.inr ⟨rfl, rfl⟩, fun rest => follow_parent⟩
  by_cases hlong : maxName < name.utf8ByteSize
  · have hstop : ∀ rest, t.follow links location (name :: rest) = .error .nameTooLong :=
      fun rest => follow_long hskip hparent hlong
    exact Or.inr ⟨⟨_, fun rest _ => hstop rest⟩, fun place h => by cases (hstop []).symm.trans h⟩
  have hn : Plain name := ⟨hskip, hparent, hlong⟩
  cases he : t.entry? (location ++ [name]) with
  | none =>
    refine Or.inr ⟨⟨_, fun rest => follow_none hn he⟩, fun place h hp => ?_⟩
    rw [follow_none_last hn he] at h
    obtain rfl := Except.ok.inj h
    cases hp
  | some e =>
    cases e with
    | directory children =>
      exact Or.inl ⟨links, _, [], Or.inr ⟨rfl, rfl⟩, fun rest => follow_enter hn ⟨children, he⟩⟩
    | file bytes =>
      refine Or.inr ⟨⟨.notDirectory, fun rest hr => ?_⟩, fun place h _ hd => ?_⟩
      · rw [follow_file hn he, if_neg (by simpa using hr)]
      · rw [follow_file hn he] at h
        obtain rfl := Except.ok.inj h
        obtain ⟨children, hdir⟩ := hd
        cases he.symm.trans hdir
    | link target =>
      cases links with
      | zero =>
        have hstop : ∀ rest, t.follow 0 location (name :: rest) = .error .tooManyLinks :=
          fun rest => follow_link_zero hn he
        exact Or.inr ⟨⟨_, fun rest _ => hstop rest⟩,
          fun place h => by cases (hstop []).symm.trans h⟩
      | succ links =>
        by_cases ht : target.isEmpty = true
        · have hstop : ∀ rest, t.follow (links + 1) location (name :: rest) = .error .notFound := by
            intro rest
            rw [follow_link hn he, if_pos ht]
          exact Or.inr ⟨⟨_, fun rest _ => hstop rest⟩,
            fun place h => by cases (hstop []).symm.trans h⟩
        · have hgo : ∀ rest, t.follow (links + 1) location (name :: rest) =
              t.follow links (if (⟨target⟩ : Path).isAbsolute then [] else location)
                ((Path.parts target.toList).map String.ofList ++ rest) := by
            intro rest
            rw [follow_link hn he, if_neg ht]
          exact Or.inl ⟨links, _, _, Or.inl (Nat.lt_succ_self links), hgo⟩

/-- What is followed to a directory can be followed on from there. -/
theorem follow_append (links : Nat) (location names : List String)
    (h : t.follow links location names = .ok place) (hplace : place.present = true)
    (hd : t.DirectoryAt place.location) (rest : List String) :
    ∃ links', t.follow links location (names ++ rest) = t.follow links' place.location rest := by
  match names with
  | [] =>
    rw [FileTree.follow] at h
    obtain rfl := Except.ok.inj h
    exact ⟨links, rfl⟩
  | name :: names =>
    rcases follow_cons_cases t links location name with
      ⟨links', location', more, hless, hgo⟩ | ⟨⟨e, hstop⟩, hlast⟩
    · rw [hgo] at h
      rw [List.cons_append, hgo, ← List.append_assoc]
      exact follow_append links' location' (more ++ names) h hplace hd rest
    · by_cases hnil : names = []
      · subst hnil
        exact absurd hd (hlast place h hplace)
      · rw [hstop names hnil] at h
        cases h
termination_by (links, names.length)
decreasing_by
  rcases hless with hlt | ⟨rfl, rfl⟩
  · exact Prod.Lex.left _ _ hlt
  · exact Prod.Lex.right _ (by simp)

/-- Names that are followed alike from everywhere are followed alike behind others. -/
theorem follow_append_congr {more more' : List String} (hm : more ≠ []) (hm' : more' ≠ [])
    (hsame : ∀ links location, t.follow links location more = t.follow links location more')
    (links : Nat) (location names : List String) :
    t.follow links location (names ++ more) = t.follow links location (names ++ more') := by
  match names with
  | [] => exact hsame links location
  | name :: names =>
    rcases follow_cons_cases t links location name with
      ⟨links', location', between, hless, hgo⟩ | ⟨⟨e, hstop⟩, -⟩
    · rw [List.cons_append, List.cons_append, hgo, hgo, ← List.append_assoc, ← List.append_assoc]
      exact follow_append_congr hm hm' hsame links' location' (between ++ names)
    · rw [List.cons_append, List.cons_append, hstop _ (by simp [hm]), hstop _ (by simp [hm'])]
termination_by (links, names.length)
decreasing_by
  rcases hless with hlt | ⟨rfl, rfl⟩
  · exact Prod.Lex.left _ _ hlt
  · exact Prod.Lex.right _ (by simp)

/-- The names of a file below a directory lead to that file, unless one of them is too long. -/
theorem follow_below {links : Nat} {bytes : List UInt8} (hn : ∀ n ∈ names, IsName n)
    (he : t.entry? location = some e) (hf : e.at? names = some (.file bytes)) (hne : names ≠ [])
    (h : t.follow links location names = .ok place) :
    place = ⟨location ++ names, true⟩ := by
  induction names generalizing location e with
  | nil => exact absurd rfl hne
  | cons n names ih =>
    obtain ⟨hname, hrest⟩ := List.forall_mem_cons.mp hn
    obtain ⟨cs, child, rfl, hchild, hfile⟩ := Entry.at?_cons_eq_file.mp hf
    have hskip : ¬ (n = "" ∨ n = ".") := by
      intro h
      rcases h with rfl | rfl
      · exact hname.ne_empty rfl
      · exact hname.ne_here rfl
    have hparent : ¬ n = ".." := by
      intro h
      subst h
      exact hname.ne_parent rfl
    have hnext : t.entry? (location ++ [n]) = some child := by
      rw [entry?_append he]
      simp [Entry.at?, Entry.children, hchild]
    by_cases hlong : maxName < n.utf8ByteSize
    · rw [follow_long hskip hparent hlong] at h
      cases h
    have hplain : Plain n := ⟨hskip, hparent, hlong⟩
    cases names with
    | nil =>
      obtain rfl : child = .file bytes := by simpa [Entry.at?] using hfile
      rw [follow_file hplain hnext] at h
      exact (Except.ok.inj h).symm
    | cons m names =>
      obtain ⟨cs', -, rfl, -⟩ := Entry.at?_cons_eq_file.mp hfile
      rw [follow_enter hplain ⟨cs', hnext⟩] at h
      rw [ih hrest hnext hfile (by simp) h]
      simp

theorem stat_eq_ok_iff {p : Path} :
    t.stat p = .ok e ↔ ∃ place, t.locate p = .ok place ∧ place.present = true ∧
      t.entry? place.location = some e := by
  constructor
  · intro h
    obtain ⟨location, hr, hentry⟩ := bind_eq_ok.mp h
    obtain ⟨place, hl, hpresent⟩ := bind_eq_ok.mp hr
    split at hpresent
    · next hp =>
      obtain rfl : place.location = location := Except.ok.inj hpresent
      split at hentry
      · next he =>
        rw [Except.ok.inj hentry] at he
        exact ⟨place, hl, hp, he⟩
      · cases hentry
    · cases hpresent
  · intro h
    obtain ⟨place, hl, hp, he⟩ := h
    have hr : t.resolve p = .ok place.location :=
      bind_eq_ok.mpr ⟨place, hl, by rw [if_pos hp]; rfl⟩
    exact bind_eq_ok.mpr ⟨place.location, hr, by rw [he]; rfl⟩

theorem read_eq_ok_iff {p : Path} {bytes : List UInt8} :
    t.read p = .ok bytes ↔ t.stat p = .ok (.file bytes) := by
  constructor
  · intro h
    obtain ⟨e, hs, hread⟩ := bind_eq_ok.mp h
    split at hread
    · rw [hs, Except.ok.inj hread]
    · cases hread
  · exact fun h => bind_eq_ok.mpr ⟨_, h, rfl⟩

theorem locate_eq_ok_iff {p : Path} :
    t.locate p = .ok place ↔
      (¬ p.text.toList.contains '\x00' = true ∧ ¬ p.text.isEmpty = true ∧
          ¬ maxPath ≤ p.text.utf8ByteSize) ∧
        t.follow maxLinks (if p.isAbsolute then [] else t.workingDirectory)
          ((Path.parts p.text.toList).map String.ofList) = .ok place := by
  unfold locate
  by_cases hnul : p.text.toList.contains '\x00' = true
  · rw [if_pos hnul]
    exact ⟨nofun, fun h => absurd hnul h.1.1⟩
  by_cases hempty : p.text.isEmpty = true
  · rw [if_neg hnul, if_pos hempty]
    exact ⟨nofun, fun h => absurd hempty h.1.2.1⟩
  by_cases hlong : maxPath ≤ p.text.utf8ByteSize
  · rw [if_neg hnul, if_neg hempty, if_pos hlong]
    exact ⟨nofun, fun h => absurd hlong h.1.2.2⟩
  rw [if_neg hnul, if_neg hempty, if_neg hlong]
  exact ⟨fun h => ⟨⟨hnul, hempty, hlong⟩, h⟩, fun h => h.2⟩

/-- The path of a file below a directory leads there, if it leads anywhere. -/
theorem locate_below {p : Path} {bytes : List UInt8} {place' : Place} (hw : t.root.WellFormed)
    (hl : t.locate p = .ok place) (hpresent : place.present = true)
    (hentry : t.entry? place.location = some e) (hf : e.at? names = some (.file bytes))
    (hne : names ≠ []) (hl' : t.locate (p.below names) = .ok place') :
    place' = ⟨place.location ++ names, true⟩ := by
  obtain ⟨⟨-, hempty, -⟩, hfollow⟩ := locate_eq_ok_iff.mp hl
  obtain ⟨-, hfollow'⟩ := locate_eq_ok_iff.mp hl'
  rw [String.isEmpty_iff, ← String.toList_eq_nil_iff] at hempty
  have hroot : t.root.at? (place.location ++ names) = some (.file bytes) :=
    (entry?_append hentry names).trans hf
  have hn : ∀ n ∈ names, IsName n := fun n hmem =>
    (hw.at? hroot).1 n (List.mem_append_right _ hmem)
  have hd : t.DirectoryAt place.location := by
    obtain ⟨n, names, rfl⟩ := List.exists_cons_of_ne_nil hne
    obtain ⟨cs, -, rfl, -⟩ := Entry.at?_cons_eq_file.mp hf
    exact ⟨cs, hentry⟩
  -- Both paths are followed from one directory, and an empty part between them says nothing.
  obtain ⟨links, hfrom⟩ := follow_append _ _ _ hfollow hpresent hd names
  obtain ⟨front, hfront, hparts⟩ := Path.exists_parts_below hn hne p
  have hnames : (names.map String.toList).map String.ofList = names := by simp
  rw [Path.isAbsolute_below hn hempty, hparts, List.map_append, hnames] at hfollow'
  have hplace : t.follow links place.location names = .ok place' := by
    rw [← hfrom, ← hfollow']
    rcases hfront with hfront | hfront
    · rw [hfront]
    · rw [hfront, List.map_append, List.append_assoc]
      exact follow_append_congr (by simp) hne (fun _ _ => follow_skip (Or.inl rfl)) _ _ _
  exact follow_below hn hentry hf hne hplace

/-- A file below a directory that can be read by its path gives its bytes. -/
theorem read_below {p : Path} {bytes bytes' : List UInt8} (hw : t.root.WellFormed)
    (hp : t.stat p = .ok e) (hf : e.at? names = some (.file bytes)) (hne : names ≠ [])
    (h : t.read (p.below names) = .ok bytes') : bytes' = bytes := by
  obtain ⟨place, hl, hpresent, hentry⟩ := stat_eq_ok_iff.mp hp
  obtain ⟨place', hl', -, hentry'⟩ := stat_eq_ok_iff.mp (read_eq_ok_iff.mp h)
  have hsame := locate_below hw hl hpresent hentry hf hne hl'
  have hbytes : t.entry? place'.location = some (.file bytes) := by
    rw [hsame]
    exact (entry?_append hentry names).trans hf
  rw [hbytes] at hentry'
  exact (Entry.file.inj (Option.some.inj hentry')).symm

end FileTree

end TokenAudit
