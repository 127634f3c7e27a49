import TokenAudit.Proofs.Files.Locations
import TokenAudit.Proofs.Text.Utf8RoundTrip

/-! What has been written to a file is read there, and writing it again changes nothing. -/

namespace TokenAudit

namespace Entry

variable {e new child : Entry} {n name : String} {names front rest : List String}
variable {children : List (String × Entry)}

theorem lookup_setChild_self : (setChild name new children).lookup name = some new := by
  induction children with
  | nil => simp [setChild]
  | cons c children ih =>
    obtain ⟨m, old⟩ := c
    rw [setChild]
    split
    · next h =>
      subst h
      simp
    · next h =>
      have hne : (name == m) = false := by simpa using Ne.symm h
      rw [List.lookup_cons, hne]
      exact ih

theorem lookup_setChild_of_ne (hn : n ≠ name) :
    (setChild name new children).lookup n = children.lookup n := by
  have hname : (n == name) = false := by simpa using hn
  induction children with
  | nil => simp [setChild, List.lookup_cons, hname]
  | cons c children ih =>
    obtain ⟨m, old⟩ := c
    rw [setChild]
    split
    · next h =>
      subst h
      simp [List.lookup_cons, hname]
    · rw [List.lookup_cons, List.lookup_cons, ih]

theorem setChild_eq_self (h : children.lookup name = some new) :
    setChild name new children = children := by
  induction children with
  | nil => cases h
  | cons c children ih =>
    obtain ⟨m, old⟩ := c
    rw [setChild]
    by_cases hm : m = name
    · subst hm
      obtain rfl : old = new := by simpa using h
      rw [if_pos rfl]
    · have hne : (name == m) = false := by simpa using Ne.symm hm
      rw [List.lookup_cons, hne] at h
      rw [if_neg hm, ih h]

theorem at?_cons (e : Entry) (n : String) (names : List String) :
    e.at? (n :: names) = (e.children.lookup n).bind (·.at? names) := by
  rw [at?]
  cases e.children.lookup n <;> rfl

theorem at?_insert_self (new : Entry) (names : List String) (e : Entry) :
    (insert new names e).at? names = some new := by
  induction names generalizing e with
  | nil => simp [insert, at?]
  | cons n names ih =>
    rw [insert, at?_cons]
    show ((setChild n _ e.children).lookup n).bind _ = _
    rw [lookup_setChild_self]
    exact ih _

/-- On the way to what has been inserted there are directories. -/
theorem at?_insert_front (new : Entry) (front : List String) (n : String) (rest : List String)
    (e : Entry) : ∃ cs, (insert new (front ++ n :: rest) e).at? front = some (.directory cs) := by
  induction front generalizing e with
  | nil => exact ⟨_, by rw [List.nil_append, insert, at?]⟩
  | cons m front ih =>
    obtain ⟨cs, hcs⟩ := ih ((e.children.lookup m).getD (.directory []))
    refine ⟨cs, ?_⟩
    rw [List.cons_append, insert, at?_cons]
    show ((setChild m _ e.children).lookup m).bind _ = _
    rw [lookup_setChild_self]
    exact hcs

/-- Elsewhere nothing changes. -/
theorem at?_insert_off {location : List String} (new e : Entry) (h : ¬ location <+: names)
    (h' : ¬ names <+: location) : (insert new location e).at? names = e.at? names := by
  induction location generalizing e names with
  | nil => exact absurd (List.nil_prefix) h
  | cons m location ih =>
    cases names with
    | nil => exact absurd (List.nil_prefix) h'
    | cons n names =>
      rw [insert, at?_cons, at?_cons]
      show ((setChild m _ e.children).lookup n).bind _ = _
      by_cases hmn : n = m
      · subst hmn
        rw [List.prefix_cons_inj] at h h'
        rw [lookup_setChild_self, Option.bind_some, ih _ h h']
        cases hl : e.children.lookup n with
        | some old => rfl
        | none =>
          cases names with
          | nil => exact absurd (List.nil_prefix) h'
          | cons n' names => simp [at?_cons, children]
      · rw [lookup_setChild_of_ne hmn]

theorem insert_eq_self {location : List String} (h : e.at? location = some new) :
    insert new location e = e := by
  induction location generalizing e with
  | nil => exact (Option.some.inj h).symm
  | cons n location ih =>
    rw [at?_cons] at h
    obtain ⟨child, hl, hchild⟩ := Option.bind_eq_some_iff.mp h
    cases e with
    | file | link => cases hl
    | directory cs =>
      have hold : ((children (.directory cs)).lookup n).getD (.directory []) = child := by
        rw [hl]
        rfl
      rw [insert, hold, ih hchild]
      exact congrArg Entry.directory (setChild_eq_self hl)

theorem mem_setChild {c : String × Entry} (hc : c ∈ setChild name new children) :
    c = (name, new) ∨ c ∈ children := by
  induction children with
  | nil => exact Or.inl (List.mem_singleton.mp hc)
  | cons c' children ih =>
    obtain ⟨m, old⟩ := c'
    rw [setChild] at hc
    split at hc
    · next hm =>
      rcases List.mem_cons.mp hc with hc | hc
      · exact Or.inl (by rw [hc, hm])
      · exact Or.inr (List.mem_cons_of_mem _ hc)
    · rcases List.mem_cons.mp hc with hc | hc
      · exact Or.inr (by simp [hc])
      · exact (ih hc).imp_right (List.mem_cons_of_mem _)

theorem nodup_setChild (hd : (children.map (·.1)).Nodup) :
    ((setChild name new children).map (·.1)).Nodup := by
  induction children with
  | nil => exact List.nodup_singleton _
  | cons c children ih =>
    obtain ⟨m, old⟩ := c
    obtain ⟨hfresh, hrest⟩ := List.nodup_cons.mp hd
    rw [setChild]
    split
    · exact hd
    · next hm =>
      refine List.nodup_cons.mpr ⟨fun hmem => ?_, ih hrest⟩
      obtain ⟨c, hc, hname⟩ := List.mem_map.mp hmem
      rcases mem_setChild hc with rfl | hc
      · exact hm hname.symm
      · exact hfresh (List.mem_map.mpr ⟨c, hc, hname⟩)

/-- A tree into which something well formed is put below names stays well formed. -/
theorem WellFormed.insert {location : List String} (hw : e.WellFormed) (hnew : new.WellFormed)
    (hn : ∀ n ∈ location, IsName n) : (insert new location e).WellFormed := by
  induction location generalizing e with
  | nil => exact hnew
  | cons n location ih =>
    obtain ⟨hname, hrest⟩ := List.forall_mem_cons.mp hn
    have hchildren : (e.children.map (·.1)).Nodup ∧
        ∀ c ∈ e.children, IsName c.1 ∧ c.2.WellFormed := by
      cases hw with
      | file | link => exact ⟨List.nodup_nil, nofun⟩
      | directory hnodup hnames hwell =>
        exact ⟨hnodup, fun c hc => ⟨hnames c hc, hwell c hc⟩⟩
    have hold : ((e.children.lookup n).getD (.directory [])).WellFormed := by
      cases hl : e.children.lookup n with
      | none => exact .directory List.nodup_nil nofun nofun
      | some child => exact (hchildren.2 _ (mem_of_lookup hl)).2
    have hmembers : ∀ c ∈ setChild n (Entry.insert new location
        ((e.children.lookup n).getD (.directory []))) e.children, IsName c.1 ∧ c.2.WellFormed := by
      intro c hc
      rcases mem_setChild hc with rfl | hc
      · exact ⟨hname, ih hold hrest⟩
      · exact hchildren.2 c hc
    rw [Entry.insert]
    exact .directory (nodup_setChild hchildren.1) (fun c hc => (hmembers c hc).1)
      fun c hc => (hmembers c hc).2

end Entry

namespace FileTree

variable {t : FileTree} {location names more rest : List String} {place : Place} {e : Entry}
variable {bytes : List UInt8}

theorem directoryAt_above {n : String} (h : t.entry? (location ++ n :: rest) = some e) :
    t.DirectoryAt location := by
  unfold FileTree.entry? at h
  rw [Entry.at?_append] at h
  obtain ⟨parent, hparent, hchild⟩ := Option.bind_eq_some_iff.mp h
  cases parent with
  | file | link => simp [Entry.at?_cons, Entry.children] at hchild
  | directory cs => exact ⟨cs, hparent⟩

theorem DirectoryAt.of_prefix (hd : t.DirectoryAt location) (h : names <+: location) :
    t.DirectoryAt names := by
  obtain ⟨more, rfl⟩ := h
  cases more with
  | nil => rwa [List.append_nil] at hd
  | cons n more =>
    obtain ⟨cs, hcs⟩ := hd
    exact directoryAt_above hcs

/-- The location is that of a file or of nothing, in a directory. -/
structure Writable (t : FileTree) (location : List String) : Prop where
  parent : ∃ directory name, location = directory ++ [name] ∧ t.DirectoryAt directory
  vacant : t.entry? location = none ∨ ∃ bytes, t.entry? location = some (.file bytes)

/-- The tree with a file at `location`. -/
def withFile (t : FileTree) (location : List String) (bytes : List UInt8) : FileTree :=
  { t with root := Entry.insert (.file bytes) location t.root }

theorem file_withFile (t : FileTree) (location : List String) (bytes : List UInt8) :
    FileTree.entry? (t.withFile location bytes) location = some (.file bytes) :=
  Entry.at?_insert_self _ _ _

theorem Writable.not_directory (hw : t.Writable location) : ¬ t.DirectoryAt location := by
  rintro ⟨cs, hcs⟩
  rcases hw.vacant with h | ⟨bytes, h⟩ <;> cases h.symm.trans hcs

theorem Writable.directoryAt (hw : t.Writable location) (hd : t.DirectoryAt names) :
    (t.withFile location bytes).DirectoryAt names := by
  have hoff : ¬ location <+: names := fun h => hw.not_directory (hd.of_prefix h)
  by_cases hfront : names <+: location
  · obtain ⟨rest, rfl⟩ := hfront
    cases rest with
    | nil => exact absurd (by simp) hoff
    | cons n rest => exact Entry.at?_insert_front _ _ _ _ _
  · obtain ⟨cs, hcs⟩ := hd
    exact ⟨cs, (Entry.at?_insert_off _ _ hoff hfront).trans hcs⟩

theorem Writable.link {target : String} (hw : t.Writable location)
    (hl : t.entry? names = some (.link target)) :
    FileTree.entry? (t.withFile location bytes) names = some (.link target) := by
  have hne : names ≠ location := by
    rintro rfl
    rcases hw.vacant with h | ⟨bytes, h⟩ <;> cases h.symm.trans hl
  have hoff : ¬ location <+: names := by
    rintro ⟨rest, rfl⟩
    cases rest with
    | nil => exact hne (List.append_nil _)
    | cons n rest => exact hw.not_directory (directoryAt_above hl)
  have hfront : ¬ names <+: location := by
    obtain ⟨directory, name, rfl, hd⟩ := hw.parent
    intro h
    rcases List.prefix_concat_iff.mp h with h | h
    · exact hne h
    · obtain ⟨cs, hcs⟩ := hd.of_prefix h
      cases hl.symm.trans hcs
  exact (Entry.at?_insert_off _ _ hoff hfront).trans hl

theorem follow_last_withFile {name : String} (hn : Plain name) (links : Nat) :
    (t.withFile (location ++ [name]) bytes).follow links location [name] =
      .ok ⟨location ++ [name], true⟩ := by
  rw [follow_file hn (file_withFile t _ bytes)]
  rfl

/-- A path that leads to where no directory is leads to the file once one is there. If it starts
in a directory, it leads to a place in a directory. -/
theorem follow_withFile (links : Nat) (location names : List String)
    (h : t.follow links location names = .ok place) (hn : ¬ t.DirectoryAt place.location) :
    (t.DirectoryAt location → t.Writable place.location) ∧
      (t.withFile place.location bytes).follow links location names =
        .ok ⟨place.location, true⟩ := by
  match names with
  | [] =>
    rw [FileTree.follow] at h
    obtain rfl := Except.ok.inj h
    refine ⟨fun hd => absurd hd hn, ?_⟩
    rw [FileTree.follow]
  | name :: rest =>
    by_cases hskip : name = "" ∨ name = "."
    · rw [follow_skip hskip] at h ⊢
      exact follow_withFile links location rest h hn
    by_cases hparent : name = ".."
    · subst hparent
      rw [follow_parent] at h ⊢
      obtain ⟨hw, hfollow⟩ := follow_withFile links location.dropLast rest h hn
      exact ⟨fun hd => hw (hd.of_prefix (List.dropLast_prefix location)), hfollow⟩
    by_cases hlong : maxName < name.utf8ByteSize
    · rw [follow_long hskip hparent hlong] at h
      cases h
    have hplain : Plain name := ⟨hskip, hparent, hlong⟩
    cases he : t.entry? (location ++ [name]) with
    | none =>
      by_cases hr : rest = []
      · subst hr
        rw [follow_none_last hplain he] at h
        obtain rfl := Except.ok.inj h
        exact ⟨fun hd => ⟨⟨location, name, rfl, hd⟩, Or.inl he⟩, follow_last_withFile hplain links⟩
      · rw [follow_none hplain he hr] at h
        cases h
    | some e =>
      have hd : t.DirectoryAt location := directoryAt_above he
      cases e with
      | directory cs =>
        rw [follow_enter hplain ⟨cs, he⟩] at h
        obtain ⟨hw, hfollow⟩ := follow_withFile links (location ++ [name]) rest h hn
        have hw := hw ⟨cs, he⟩
        refine ⟨fun _ => hw, ?_⟩
        rw [follow_enter hplain (hw.directoryAt ⟨cs, he⟩), hfollow]
      | file old =>
        by_cases hr : rest = []
        · subst hr
          rw [follow_file hplain he] at h
          obtain rfl := Except.ok.inj h
          exact ⟨fun _ => ⟨⟨location, name, rfl, hd⟩, Or.inr ⟨old, he⟩⟩,
            follow_last_withFile hplain links⟩
        · rw [follow_file hplain he, if_neg (by simpa using hr)] at h
          cases h
      | link target =>
        by_cases hzero : links = 0
        · rw [hzero, follow_link_zero hplain he] at h
          cases h
        obtain ⟨fewer, hlinks⟩ := Nat.exists_eq_succ_of_ne_zero hzero
        rw [hlinks] at h ⊢
        by_cases ht : target.isEmpty = true
        · rw [follow_link hplain he, if_pos ht] at h
          cases h
        · rw [follow_link hplain he, if_neg ht] at h
          have hstart : t.DirectoryAt
              (if (⟨target⟩ : Path).isAbsolute then [] else location) := by
            split
            · exact hd.of_prefix List.nil_prefix
            · exact hd
          obtain ⟨hw, hfollow⟩ := follow_withFile fewer _ _ h hn
          have hw := hw hstart
          refine ⟨fun _ => hw, ?_⟩
          rw [follow_link hplain (hw.link he), if_neg ht, hfollow]
termination_by (links, names.length)
decreasing_by
  · exact Prod.Lex.right _ (Nat.lt_succ_self _)
  · exact Prod.Lex.right _ (Nat.lt_succ_self _)
  · exact Prod.Lex.right _ (Nat.lt_succ_self _)
  · exact Prod.Lex.left _ _ (hlinks ▸ Nat.lt_succ_self _)

theorem write_eq_ok {t' : FileTree} {p : Path} (h : t.write p bytes = .ok t') :
    beforeTrailing? p = none ∧ ∃ place, t.locate p = .ok place ∧
      ¬ t.DirectoryAt place.location ∧ t' = t.withFile place.location bytes := by
  unfold write at h
  split at h
  · next front hfront =>
    split at h
    · cases h
    · obtain ⟨_, -, hthrow⟩ := bind_eq_ok.mp h
      cases hthrow
  · next hfront =>
    obtain ⟨place, hl, hput⟩ := bind_eq_ok.mp h
    refine ⟨hfront, place, hl, ?_⟩
    split at hput
    · cases hput
    · next hnot =>
      have hd : ¬ t.DirectoryAt place.location := fun ⟨cs, hcs⟩ => hnot cs hcs
      exact ⟨hd, (Except.ok.inj hput).symm⟩

theorem wellFormed_of_write {t' : FileTree} {p : Path} (hw : t.root.WellFormed)
    (hstart : ∀ n ∈ t.workingDirectory, IsName n) (h : t.write p bytes = .ok t') :
    t'.root.WellFormed := by
  obtain ⟨-, place, hl, -, rfl⟩ := write_eq_ok h
  exact hw.insert (.file bytes) (isName_of_locate hw hstart hl)

theorem write_of_locate {p : Path} (hfront : beforeTrailing? p = none) (hl : t.locate p = .ok place)
    (hd : ¬ t.DirectoryAt place.location) :
    t.write p bytes = .ok (t.withFile place.location bytes) := by
  unfold write
  rw [hfront]
  refine bind_eq_ok.mpr ⟨place, hl, ?_⟩
  split
  · next cs hcs => exact absurd ⟨cs, hcs⟩ hd
  · rfl

section Written

variable {t' : FileTree} {p : Path}

theorem locate_of_write (h : t.write p bytes = .ok t') :
    ∃ location, t' = t.withFile location bytes ∧ t'.locate p = .ok ⟨location, true⟩ := by
  obtain ⟨-, place, hl, hd, rfl⟩ := write_eq_ok h
  obtain ⟨hsound, hfollow⟩ := locate_eq_ok_iff.mp hl
  exact ⟨_, rfl, locate_eq_ok_iff.mpr ⟨hsound, (follow_withFile _ _ _ hfollow hd).2⟩⟩

/-- What has been written is read. -/
theorem read_of_write (h : t.write p bytes = .ok t') : t'.read p = .ok bytes := by
  obtain ⟨location, rfl, hl⟩ := locate_of_write h
  rw [read_eq_ok_iff, stat_eq_ok_iff]
  exact ⟨_, hl, rfl, file_withFile t location bytes⟩

/-- What is written again changes nothing. -/
theorem write_of_write (h : t.write p bytes = .ok t') : t'.write p bytes = .ok t' := by
  obtain ⟨hfront, -⟩ := write_eq_ok h
  obtain ⟨location, rfl, hl⟩ := locate_of_write h
  have hfile := file_withFile t location bytes
  have hd : ¬ (t.withFile location bytes).DirectoryAt location := by
    rintro ⟨cs, hcs⟩
    cases hfile.symm.trans hcs
  have hsame : (t.withFile location bytes).withFile location bytes = t.withFile location bytes :=
    congrArg (fun root => { t with root }) (Entry.insert_eq_self hfile)
  rw [write_of_locate hfront hl hd, hsame]

theorem readText_of_write {text : List Char} (h : t.write p (Text.toBytes text) = .ok t') :
    t'.readText p = .ok text := by
  refine bind_eq_ok.mpr ⟨_, read_of_write h, ?_⟩
  rw [Text.ofBytes?_toBytes]
  rfl

end Written

end FileTree

end TokenAudit
