import TokenAudit.Proofs.Files.Display
import TokenAudit.Proofs.Files.Spelling
import TokenAudit.Proofs.Rule.ScanRoots

/-! The list that the check shows. Where scan roots lie inside the root and no mark is shown as
another, files are shown in the order of their paths, and different files are shown apart. -/

namespace TokenAudit

namespace Path

variable {base root q : Path} {names : List String} {cs r : List Char}

theorem ofParts_parts_separated (cs r : List Char) :
    ofParts (parts (cs ++ separator cs ++ r)) = ofParts (parts cs) ++ ofParts (parts r) := by
  rcases List.eq_nil_or_concat' cs with rfl | ⟨before, c, rfl⟩
  · rfl
  by_cases hc : c = '/'
  · have htext : before ++ [c] ++ separator (before ++ [c]) ++ r = before ++ '/' :: r := by
      simp [separator, hc]
    rw [htext, parts_append, ofParts_append, hc, ofParts_parts_concat_separator]
  · have htext : before ++ [c] ++ separator (before ++ [c]) ++ r = (before ++ [c]) ++ '/' :: r := by
      simp [separator, hc]
    rw [htext, parts_append, ofParts_append]

theorem Tight.append_of_ne_nil (h : Tight cs) (hne : cs ≠ []) (r : List Char) :
    Tight (cs ++ separator cs ++ r) := by
  have hhere := h.ne_here
  have hseparator := h.ne_separator
  have hskipped := h.ne_skipped
  rcases cs with _ | ⟨c, _ | ⟨d, cs⟩⟩
  · exact absurd rfl hne
  · refine ⟨?_, fun x => ?_, fun x => ?_⟩ <;> simp_all [separator]
  · refine ⟨?_, fun x => ?_, fun x => ?_⟩ <;> simp_all

/-- What is taken from a path and does not start anew lies inside it. -/
theorem components_join (hq : q.isAbsolute = false) :
    root.components <+: (root.join q).components := by
  by_cases hempty : root.text.toList = []
  · have hnone : root.components = [] := by
      unfold components
      rw [hempty]
      rfl
    rw [hnone]
    exact List.nil_prefix
  unfold components
  rw [toList_join hq]
  generalize root.text.toList = cs at hempty
  generalize q.text.toList = r
  fun_cases lead cs with
  | case1 rest =>
    have hsplit : '/' :: rest ++ separator ('/' :: rest) ++ r =
        '/' :: (rest ++ separator rest ++ r) := by
      cases rest <;> simp [separator]
    rw [hsplit]
    simp only [lead]
    rw [ofParts_parts_separated, ← List.append_assoc]
    exact List.prefix_append _ _
  | case2 =>
    have hsplit : ['.'] ++ separator ['.'] ++ r = '.' :: '/' :: r := rfl
    rw [hsplit]
    exact List.prefix_append _ _
  | case3 rest =>
    have hsplit : '.' :: '/' :: rest ++ separator ('.' :: '/' :: rest) ++ r =
        '.' :: '/' :: (rest ++ separator ('/' :: rest) ++ r) := by
      simp [separator]
    have hrest : '/' :: (rest ++ separator ('/' :: rest) ++ r) =
        '/' :: rest ++ separator ('/' :: rest) ++ r := rfl
    rw [hsplit]
    simp only [lead]
    rw [hrest, ofParts_parts_separated, ← List.append_assoc]
    exact List.prefix_append _ _
  | case4 _ hroot hhere hstart =>
    have htight : Tight cs := ⟨hhere, hroot, hstart⟩
    rw [(htight.append_of_ne_nil hempty r).lead]
    dsimp only
    rw [ofParts_parts_separated, ← List.append_assoc]
    exact List.prefix_append _ _

theorem tight_reverse_below (hn : ∀ n ∈ names, IsName n) (hne : names ≠ []) (p : Path) :
    Tight (p.below names).text.toList.reverse := by
  obtain ⟨way, name, rfl⟩ := (List.eq_nil_or_concat' names).resolve_left hne
  have hname : IsName name := hn name (by simp)
  have hbelow : p.below (way ++ [name]) = (p.below way).child name := by
    simp [below]
  have hne : name.toList.reverse ≠ [] := by simpa using hname.ne_empty
  have hhere : name.toList.reverse ≠ ['.'] := fun h => hname.ne_here (by simpa using h)
  have hsep : '/' ∉ name.toList.reverse := by simpa using hname.no_separator
  rw [hbelow, toList_child hname, List.reverse_append]
  exact tight_append hne hhere hsep _

end Path

namespace OriginUse

open TokenAudit.Path

variable {t : FileTree} {root base path path' : Path} {dir : String} {dirs names : List String}
variable {bytes : List UInt8}

theorem UsesOrigin.isName (hw : t.root.WellFormed) (h : UsesOrigin t base names bytes) :
    ∀ n ∈ names, IsName n := by
  obtain ⟨directory, hs, hf⟩ := h.file
  obtain ⟨place, -, -, hentry⟩ := FileTree.stat_eq_ok_iff.mp hs
  exact ((hw.at? hentry).2.at? hf).1

/-- A hit below a scan root inside the root lies inside it too, and ends in a name. -/
theorem inside_of_mem_hitsIn (hw : t.root.WellFormed)
    (hinside : root.components <+: (root.join ⟨dir⟩).components) (h : path ∈ hitsIn t root dir) :
    root.components <+: path.components ∧ Tight path.text.toList.reverse := by
  obtain ⟨names, bytes, huses, hpath⟩ := (mem_hitsIn_iff hw).mp h
  have hn := huses.isName hw
  rw [hpath]
  refine ⟨?_, tight_reverse_below hn huses.source.ne_nil _⟩
  rw [components_below hn]
  exact hinside.trans (List.prefix_append _ _)

/-- What is found through one scan root is shown strictly in the order of the paths. -/
theorem pairwise_shown_hitsIn (hw : t.root.WellFormed)
    (hinside : root.components <+: (root.join ⟨dir⟩).components)
    (hplain : ∀ path ∈ hitsIn t root dir, ShownAsIs root path) :
    ((hitsIn t root dir).map (root.display ·)).Pairwise fun a b => Before ⟨a⟩ ⟨b⟩ := by
  by_cases hd : t.isDirectory (root.join ⟨dir⟩) = true
  · have hordered := (finds_hitsIn hw root dir hd).ordered
    refine List.pairwise_map.mpr (hordered.imp_of_mem fun {p q} hp hq hbefore => ?_)
    obtain ⟨hpin, hplast⟩ := inside_of_mem_hitsIn hw hinside hp
    obtain ⟨hqin, hqlast⟩ := inside_of_mem_hitsIn hw hinside hq
    exact (before_display_iff hpin hqin hplast hqlast (hplain p hp) (hplain q hq)).mpr hbefore
  · rw [hitsIn_eq_nil hd]
    exact List.Pairwise.nil

/-- If no file is found twice, no name is shown twice. -/
theorem nodup_scan (hw : t.root.WellFormed)
    (hinside : ∀ dir ∈ dirs, root.components <+: (root.join ⟨dir⟩).components)
    (hplain : ∀ path ∈ hits t root dirs, ShownAsIs root path)
    (honce : ((hits t root dirs).map t.placeOf?).Nodup) : (scan t root dirs).Nodup := by
  have hscan : scan t root dirs = (hits t root dirs).map (root.display ·) := rfl
  rw [hscan]
  refine List.pairwise_map.mpr ((List.pairwise_map.mp honce).imp_of_mem ?_)
  intro p q hp hq hne hshown
  obtain ⟨dir, hdir, hphit⟩ := List.mem_flatMap.mp hp
  obtain ⟨dir', hdir', hqhit⟩ := List.mem_flatMap.mp hq
  obtain ⟨hpin, hplast⟩ := inside_of_mem_hitsIn hw (hinside dir hdir) hphit
  obtain ⟨hqin, hqlast⟩ := inside_of_mem_hitsIn hw (hinside dir' hdir') hqhit
  have hsame : p.components = q.components := by
    rw [components_display hpin hplast (hplain p hp), components_display hqin hqlast (hplain q hq),
      hshown]
  obtain ⟨location, hlocation⟩ := exists_place_of_mem_hitsIn hw hphit
  obtain ⟨location', hlocation'⟩ := exists_place_of_mem_hitsIn hw hqhit
  have hplaces := FileTree.locate_unique hsame (FileTree.placeOf?_eq_some_iff.mp hlocation)
    (FileTree.placeOf?_eq_some_iff.mp hlocation')
  rw [hlocation, hlocation'] at hne
  exact hne (congrArg some (congrArg Place.location hplaces))

/-- Where scan roots are relative and no path holds a backslash, the files found through each of them
are shown strictly in the order of their paths. If no file is found twice, none is shown twice. -/
theorem shown_in_order (hw : t.root.WellFormed)
    (hdirs : ∀ dir ∈ dirs, (⟨dir⟩ : Path).isAbsolute = false)
    (hplain : ∀ path ∈ hits t root dirs, '\\' ∉ path.text.toList) :
    (∀ dir ∈ dirs, ((hitsIn t root dir).map (root.display ·)).Pairwise
        fun a b => Before ⟨a⟩ ⟨b⟩) ∧
      (((hits t root dirs).map t.placeOf?).Nodup → (scan t root dirs).Nodup) := by
  have hshown : ∀ path ∈ hits t root dirs, ShownAsIs root path :=
    fun path hpath => shownAsIs_of_not_mem root (hplain path hpath)
  constructor
  · intro dir hdir
    refine pairwise_shown_hitsIn hw (components_join (hdirs dir hdir)) fun path hpath => ?_
    exact hshown path (List.mem_flatMap.mpr ⟨dir, hdir, hpath⟩)
  · exact nodup_scan hw (fun dir hdir => components_join (hdirs dir hdir)) hshown

end OriginUse

end TokenAudit
