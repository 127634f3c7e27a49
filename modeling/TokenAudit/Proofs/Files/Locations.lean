import TokenAudit.Proofs.Files.Tree
import TokenAudit.Proofs.Lists

/-! The canonical paths of files: one for each location, all of them among the files of the tree. -/

namespace TokenAudit

namespace Entry

variable {e child : Entry} {name : String} {location names : List String} {bytes : List UInt8}

theorem mem_filesAmong {children : List (String × Entry)} (hc : (name, child) ∈ children)
    {found : List String} (hf : found ∈ child.files (location ++ [name])) :
    found ∈ filesAmong location children := by
  induction children with
  | nil => cases hc
  | cons c children ih =>
    obtain ⟨n, e⟩ := c
    rw [filesAmong, List.mem_append]
    rcases List.mem_cons.mp hc with heq | hc
    · obtain ⟨rfl, rfl⟩ := Prod.mk.inj heq
      exact Or.inl hf
    · exact Or.inr (ih hc)

theorem append_mem_files (hf : e.at? names = some (.file bytes)) (location : List String) :
    location ++ names ∈ e.files location := by
  induction names generalizing e location with
  | nil =>
    obtain rfl : e = .file bytes := Option.some.inj hf
    simp [files]
  | cons n names ih =>
    obtain ⟨children, child, rfl, hlookup, hfile⟩ := at?_cons_eq_file.mp hf
    have hbelow := ih hfile (location ++ [n])
    rw [files]
    refine mem_filesAmong (mem_of_lookup hlookup) ?_
    simpa using hbelow

end Entry

namespace FileTree

variable {t : FileTree} {location location' : List String} {p q : Path} {bytes : List UInt8}

/-- Where a text ends in a name, `child` continues it as `intercalate` does. -/
theorem below_intercalate {front m : String} {names : List String} (hm : IsName m)
    (hn : ∀ n ∈ names, IsName n) :
    (⟨front ++ m⟩ : Path).below names = ⟨front ++ "/".intercalate (m :: names)⟩ := by
  induction names generalizing front m with
  | nil => simp [Path.below]
  | cons n names ih =>
    obtain ⟨hname, hrest⟩ := List.forall_mem_cons.mp hn
    have hsep : Path.separator (front ++ m).toList = ['/'] := by
      have hlast : m.toList.getLast? ≠ some '/' :=
        fun h => hm.no_separator (List.mem_of_getLast? h)
      simp [Path.separator, List.getLast?_append, hm.ne_empty, hlast]
    have hchild : (⟨front ++ m⟩ : Path).child n = ⟨front ++ m ++ "/" ++ n⟩ := by
      have htext : ((⟨front ++ m⟩ : Path).child n).text = front ++ m ++ "/" ++ n := by
        rw [← String.toList_inj, Path.toList_child hname, hsep]
        simp
      exact congrArg Path.mk htext
    have hbelow : (⟨front ++ m⟩ : Path).below (n :: names) =
        (⟨front ++ m ++ "/" ++ n⟩ : Path).below names := by
      rw [← hchild]
      rfl
    rw [hbelow, ih hname hrest, String.intercalate_cons_cons]
    simp [String.append_assoc]

theorem pathOf_eq_below (hn : ∀ n ∈ location, IsName n) :
    pathOf location = (⟨"/"⟩ : Path).below location := by
  cases location with
  | nil => rfl
  | cons n names =>
    obtain ⟨hname, hrest⟩ := List.forall_mem_cons.mp hn
    have hchild : (⟨"/"⟩ : Path).child n = ⟨"/" ++ n⟩ := by
      have htext : ((⟨"/"⟩ : Path).child n).text = "/" ++ n := by
        rw [← String.toList_inj, Path.toList_child hname]
        simp [Path.separator]
      exact congrArg Path.mk htext
    have hbelow : (⟨"/"⟩ : Path).below (n :: names) = (⟨"/" ++ n⟩ : Path).below names := by
      rw [← hchild]
      rfl
    rw [hbelow, below_intercalate hname hrest]
    rfl

theorem components_pathOf (hn : ∀ n ∈ location, IsName n) :
    (pathOf location).components = .root :: location.map .name := by
  rw [pathOf_eq_below hn, Path.components_below hn]
  rfl

theorem eq_of_map_name {names names' : List String}
    (h : names.map PathComponent.name = names'.map PathComponent.name) : names = names' :=
  List.map_injective_iff.mpr (fun _ _ => PathComponent.name.inj) h

theorem eq_of_components_pathOf (hn : ∀ n ∈ location, IsName n) (hn' : ∀ n ∈ location', IsName n)
    (h : (pathOf location).components = (pathOf location').components) : location = location' := by
  rw [components_pathOf hn, components_pathOf hn'] at h
  exact eq_of_map_name (List.cons.inj h).2

theorem isFile_iff : t.isFile p = true ↔ ∃ bytes, t.stat p = .ok (.file bytes) := by
  unfold isFile
  cases hs : t.stat p with
  | error => simp
  | ok e => cases e <;> simp [Entry.isFile]

theorem canonicalize_eq_ok_iff : t.canonicalize p = .ok q ↔
    ∃ place, t.locate p = .ok place ∧ place.present = true ∧ q = pathOf place.location := by
  unfold canonicalize resolve
  cases t.locate p with
  | error e => exact ⟨nofun, fun ⟨_, h, _⟩ => nomatch h⟩
  | ok place =>
    obtain ⟨location, present⟩ := place
    cases present with
    | false =>
      refine ⟨nofun, fun ⟨place, h, hp, _⟩ => ?_⟩
      rw [← Except.ok.inj h] at hp
      cases hp
    | true =>
      constructor
      · intro h
        exact ⟨_, rfl, rfl, (Except.ok.inj h).symm⟩
      · rintro ⟨place, h, -, rfl⟩
        rw [← Except.ok.inj h]
        rfl

/-- What is followed from names, along parts of a path, leads to names. -/
theorem isName_of_follow {links : Nat} {names : List String} {place : Place}
    (hw : t.root.WellFormed) (hl : ∀ n ∈ location, IsName n) (hs : ∀ n ∈ names, '/' ∉ n.toList)
    (h : t.follow links location names = .ok place) : ∀ n ∈ place.location, IsName n := by
  fun_induction follow t links location names with
  | case1 links location =>
    obtain rfl := Except.ok.inj h
    exact hl
  | case2 links location name rest hskip ih => exact ih hl (List.forall_mem_cons.mp hs).2 h
  | case3 links location rest _ ih =>
    exact ih (fun n hn => hl n (List.dropLast_subset _ hn)) (List.forall_mem_cons.mp hs).2 h
  | case4 | case6 | case9 | case10 | case11 => cases h
  | case5 links location name rest hskip hparent _ next _ _ =>
    obtain rfl := Except.ok.inj h
    have hname : IsName name := by
      refine ⟨fun hn => hskip (Or.inl ?_), fun hn => hskip (Or.inr ?_), fun hn => hparent ?_,
        (List.forall_mem_cons.mp hs).1⟩ <;> exact String.toList_inj.mp hn
    intro n hn
    rcases List.mem_append.mp hn with hn | hn
    · exact hl n hn
    · rwa [List.mem_singleton.mp hn]
  | case7 links location name rest _ _ _ next children hentry ih =>
    exact ih (hw.at? hentry).1 (List.forall_mem_cons.mp hs).2 h
  | case8 links location name rest _ _ _ next bytes hentry _ =>
    obtain rfl := Except.ok.inj h
    exact (hw.at? hentry).1
  | case12 location name rest _ _ _ next target hentry links hne start ih =>
    refine ih (fun n hn => ?_) (fun n hn => ?_) h
    · by_cases habs : (⟨target⟩ : Path).isAbsolute = true
      · simp [start, habs] at hn
      · exact hl n (by simpa [start, habs] using hn)
    · rcases List.mem_append.mp hn with hn | hn
      · obtain ⟨q, hq, rfl⟩ := List.mem_map.mp hn
        rw [String.toList_ofList]
        exact Path.no_separator_of_mem_parts hq
      · exact hs n (List.mem_cons_of_mem _ hn)

/-- Every path leads to names, if the working directory stands at names. -/
theorem isName_of_locate {place : Place} (hw : t.root.WellFormed)
    (hstart : ∀ n ∈ t.workingDirectory, IsName n) (h : t.locate p = .ok place) :
    ∀ n ∈ place.location, IsName n := by
  refine isName_of_follow hw (fun n hn => ?_) (fun n hn => ?_) (locate_eq_ok_iff.mp h).2
  · split_ifs at hn
    · cases hn
    · exact hstart n hn
  · obtain ⟨q, hq, rfl⟩ := List.mem_map.mp hn
    rw [String.toList_ofList]
    exact Path.no_separator_of_mem_parts hq

theorem exists_names_of_canonicalize (hw : t.root.WellFormed)
    (hstart : ∀ n ∈ t.workingDirectory, IsName n) (h : t.canonicalize p = .ok q) :
    ∃ location, (∀ n ∈ location, IsName n) ∧ q = pathOf location := by
  obtain ⟨place, hl, -, rfl⟩ := canonicalize_eq_ok_iff.mp h
  exact ⟨place.location, isName_of_locate hw hstart hl, rfl⟩

/-- The path of a file at a location of the tree, which has no links on it. -/
def IsCanonical (t : FileTree) (p : Path) : Prop :=
  ∃ location bytes, t.entry? location = some (.file bytes) ∧ p = pathOf location

theorem IsCanonical.mem_files (h : t.IsCanonical p) : p ∈ t.files := by
  obtain ⟨location, bytes, hentry, rfl⟩ := h
  exact List.mem_map.mpr ⟨location, by simpa using Entry.append_mem_files hentry [], rfl⟩

theorem isCanonical_of_canonicalize (hfile : t.isFile p = true) (hq : t.canonicalize p = .ok q) :
    t.IsCanonical q := by
  obtain ⟨bytes, hs⟩ := isFile_iff.mp hfile
  obtain ⟨place, hl, -, hentry⟩ := stat_eq_ok_iff.mp hs
  obtain ⟨place', hl', -, rfl⟩ := canonicalize_eq_ok_iff.mp hq
  obtain rfl : place = place' := Except.ok.inj (hl.symm.trans hl')
  exact ⟨place.location, bytes, hentry, rfl⟩

theorem IsCanonical.components_inj (hw : t.root.WellFormed) (hp : t.IsCanonical p)
    (hq : t.IsCanonical q) (h : p.components = q.components) : p = q := by
  obtain ⟨location, _, hentry, rfl⟩ := hp
  obtain ⟨location', _, hentry', rfl⟩ := hq
  rw [eq_of_components_pathOf (hw.at? hentry).1 (hw.at? hentry').1 h]

end FileTree

end TokenAudit
