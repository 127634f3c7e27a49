import TokenAudit.Files.Sources
import TokenAudit.Proofs.Files.Locations

/-! The sources found below a directory are files of it, each found once: those on the way to which
nothing is left out. -/

namespace TokenAudit.Sources

variable {t : FileTree} {rules : IgnoreRules} {path base target p q : Path} {name : String} {e : Entry}
variable {names names' : List String} {children : List (String × Entry)}

theorem below_injective (hn : ∀ n ∈ names, IsName n) (hn' : ∀ n ∈ names', IsName n)
    (h : base.below names = base.below names') : names = names' := by
  have hc := congrArg Path.components h
  rw [Path.components_below hn, Path.components_below hn'] at hc
  exact FileTree.eq_of_map_name (List.append_cancel_left hc)

theorem amongChildren_eq_flatMap (directory : Path) (children : List (String × Entry)) :
    amongChildren t rules directory children =
      children.flatMap fun c => under t rules (directory.child c.1) c.1 c.2 := by
  induction children with
  | nil => rfl
  | cons c children ih =>
    obtain ⟨n, e⟩ := c
    rw [amongChildren, ih]
    rfl

/-- Below `base`, the names lead to a file, and `p` is its path. -/
def Leads (e : Entry) (base : Path) (names : List String) (p : Path) : Prop :=
  (∃ bytes, e.at? names = some (.file bytes)) ∧ p = base.below names

theorem Leads.child (hnodup : (children.map (·.1)).Nodup) {c : String × Entry} (hc : c ∈ children)
    (h : Leads c.2 (base.child c.1) names p) : Leads (.directory children) base (c.1 :: names) p := by
  obtain ⟨⟨bytes, hfile⟩, rfl⟩ := h
  have hlookup := (lookup_eq_some_iff_mem hnodup).mpr hc
  exact ⟨⟨bytes, Entry.at?_cons_eq_file.mpr ⟨_, _, rfl, hlookup, hfile⟩⟩, rfl⟩

/-- From the entry at `path`, which is called `name`, the names lead to a file, and nothing on the
way is left out. -/
inductive Reaches (t : FileTree) : IgnoreRules → Path → String → Entry → List String → Prop
  | file {rules path name bytes} (hkept : isLeftOut rules path name false = false) :
      Reaches t rules path name (.file bytes) []
  | inside {rules path name children child e names} (hkept : isLeftOut rules path name true = false)
      (hc : (child, e) ∈ children)
      (hinner : Reaches t (rules.enter t path) (path.child child) child e names) :
      Reaches t rules path name (.directory children) (child :: names)

theorem Reaches.leads (h : Reaches t rules path name e names) (hw : e.WellFormed) :
    Leads e path names (path.below names) := by
  induction h with
  | file _ => exact ⟨⟨_, rfl⟩, rfl⟩
  | inside _ hc _ ih =>
    cases hw with
    | directory hnodup _ hchildren => exact (ih (hchildren _ hc)).child hnodup hc

/-- No way leads through a directory of installed packages. -/
theorem Reaches.not_mem (h : Reaches t rules path name e names) :
    "node_modules" ∉ name :: names := by
  have hne : ∀ {rules path name isDirectory},
      isLeftOut rules path name isDirectory = false → "node_modules" ≠ name := by
    intro rules path name isDirectory hkept hname
    simp [isLeftOut, ← hname] at hkept
  induction h with
  | file hkept => simpa using hne hkept
  | inside hkept _ _ ih => exact List.not_mem_cons_of_ne_of_not_mem (hne hkept) ih

/-- What is found at an entry are the sources to which the search comes. -/
theorem mem_under_iff (hw : e.WellFormed) : p ∈ under t rules path name e ↔
    ∃ names, Reaches t rules path name e names ∧ p = path.below names ∧ p.isSolidity = true := by
  induction hw generalizing rules path name with
  | file bytes =>
    rw [under]
    constructor
    · intro hp
      split at hp
      · next hkept =>
        obtain rfl := List.mem_singleton.mp hp
        rw [Bool.and_eq_true, Bool.not_eq_true'] at hkept
        exact ⟨[], .file hkept.2, rfl, hkept.1⟩
      · cases hp
    · rintro ⟨names, hreaches, rfl, hsource⟩
      cases hreaches with
      | file hkept =>
        have hsource : path.isSolidity = true := hsource
        simp [hsource, hkept, Path.below]
  | link target =>
    rw [under]
    constructor
    · intro hp
      cases hp
    · rintro ⟨names, hreaches, -⟩
      cases hreaches
  | @directory children _ _ _ ih =>
    rw [under]
    constructor
    · intro hp
      split at hp
      · cases hp
      · next hkept =>
        rw [amongChildren_eq_flatMap] at hp
        obtain ⟨c, hc, hp⟩ := List.mem_flatMap.mp hp
        obtain ⟨names, hreaches, rfl, hsource⟩ := (ih c hc).mp hp
        exact ⟨c.1 :: names, .inside (Bool.eq_false_iff.mpr hkept) hc hreaches, rfl, hsource⟩
    · rintro ⟨names, hreaches, rfl, hsource⟩
      cases hreaches with
      | inside hkept hc hinner =>
        rw [hkept, if_neg Bool.false_ne_true, amongChildren_eq_flatMap]
        exact List.mem_flatMap.mpr ⟨_, hc, (ih _ hc).mpr ⟨_, hinner, rfl, hsource⟩⟩

theorem exists_leads_of_mem_under (hw : e.WellFormed) (hp : p ∈ under t rules path name e) :
    ∃ names, Leads e path names p := by
  obtain ⟨names, hreaches, rfl, -⟩ := (mem_under_iff hw).mp hp
  exact ⟨names, hreaches.leads hw⟩

theorem nodup_flatMap_children (hnodup : (children.map (·.1)).Nodup)
    (hnames : ∀ c ∈ children, IsName c.1) (hchildren : ∀ c ∈ children, c.2.WellFormed)
    (hbelow : ∀ c ∈ children, (under t rules (path.child c.1) c.1 c.2).Nodup) :
    (amongChildren t rules path children).Nodup := by
  rw [amongChildren_eq_flatMap, List.nodup_flatMap]
  refine ⟨hbelow, (List.pairwise_map.mp hnodup).imp_of_mem fun {c c'} hc hc' hne p hp hp' => ?_⟩
  -- The first names below `path` differ.
  obtain ⟨names, ⟨_, hfile⟩, hbase⟩ := exists_leads_of_mem_under (hchildren c hc) hp
  obtain ⟨names', ⟨_, hfile'⟩, hbase'⟩ := exists_leads_of_mem_under (hchildren c' hc') hp'
  have hn : ∀ n ∈ c.1 :: names, IsName n :=
    List.forall_mem_cons.mpr ⟨hnames c hc, ((hchildren c hc).at? hfile).1⟩
  have hn' : ∀ n ∈ c'.1 :: names', IsName n :=
    List.forall_mem_cons.mpr ⟨hnames c' hc', ((hchildren c' hc').at? hfile').1⟩
  have hsame : path.below (c.1 :: names) = path.below (c'.1 :: names') := hbase.symm.trans hbase'
  exact hne (List.cons.inj (below_injective hn hn' hsame)).1

theorem nodup_under (hw : e.WellFormed) : (under t rules path name e).Nodup := by
  induction hw generalizing rules path name with
  | file bytes =>
    rw [under]
    split
    · exact List.nodup_singleton _
    · exact List.nodup_nil
  | link target =>
    rw [under]
    exact List.nodup_nil
  | @directory children hnodup hnames hchildren ih =>
    rw [under]
    split
    · exact List.nodup_nil
    · exact nodup_flatMap_children hnodup hnames hchildren fun c hc => ih c hc

/-- All paths of `found` lead to files below `target`, or `target` is the only one. -/
inductive Found (t : FileTree) (target : Path) : List Path → Prop
  | nothing : Found t target []
  | file (hfile : t.isFile target = true) : Found t target [target]
  | below {children found} (hs : t.stat target = .ok (.directory children)) (hnodup : found.Nodup)
      (hfound : ∀ p ∈ found, ∃ names, names ≠ [] ∧ Leads (.directory children) target names p) :
      Found t target found

theorem Found.nodup {found : List Path} (h : Found t target found) : found.Nodup := by
  cases h with
  | nothing => exact List.nodup_nil
  | file _ => exact List.nodup_singleton _
  | below _ hnodup _ => exact hnodup

theorem findBy_eq_mergeSort (builds : List Glob → Bool)
    (hs : t.stat target = .ok (.directory children)) (patterns : List String) :
    findBy builds t target patterns =
      ((belowTarget t target children).filter
        (!isExcluded (excluding builds patterns) target ·)).mergeSort Path.le := by
  rw [findBy, hs]

theorem nodup_belowTarget (hw : (Entry.directory children).WellFormed) :
    (belowTarget t target children).Nodup := by
  cases hw with
  | directory hnodup hnames hchildren =>
    unfold belowTarget
    split_ifs
    · exact List.nodup_nil
    · exact nodup_flatMap_children hnodup hnames hchildren fun c hc => nodup_under (hchildren c hc)

theorem exists_leads_of_mem_belowTarget (hw : (Entry.directory children).WellFormed)
    (hp : p ∈ belowTarget t target children) :
    ∃ names, names ≠ [] ∧ Leads (.directory children) target names p := by
  cases hw with
  | directory hnodup _ hchildren =>
    unfold belowTarget at hp
    split_ifs at hp with hinput
    · cases hp
    · rw [amongChildren_eq_flatMap] at hp
      obtain ⟨c, hc, hp⟩ := List.mem_flatMap.mp hp
      obtain ⟨names, hleads⟩ := exists_leads_of_mem_under (hchildren c hc) hp
      exact ⟨c.1 :: names, List.cons_ne_nil _ _, hleads.child hnodup hc⟩

theorem found_findBy (hw : t.root.WellFormed) (builds : List Glob → Bool) (target : Path)
    (patterns : List String) : Found t target (findBy builds t target patterns) := by
  unfold findBy
  split
  · next children hs =>
    obtain ⟨place, -, -, hentry⟩ := FileTree.stat_eq_ok_iff.mp hs
    obtain ⟨-, hwell⟩ := hw.at? hentry
    have hperm := List.mergeSort_perm ((belowTarget t target children).filter
      (!isExcluded (excluding builds patterns) target ·)) Path.le
    refine .below hs (hperm.nodup_iff.mpr ((nodup_belowTarget hwell).filter _)) fun p hp => ?_
    have hmem := (List.mem_filter.mp (hperm.mem_iff.mp hp)).1
    exact exists_leads_of_mem_belowTarget hwell hmem
  · next bytes hs =>
    split
    · exact .file (FileTree.isFile_iff.mpr ⟨bytes, hs⟩)
    · exact .nothing
  · exact .nothing

theorem Leads.isName (hw : t.root.WellFormed) {place : Place}
    (hentry : t.entry? place.location = some e) (hp : Leads e base names p) :
    ∀ n ∈ place.location ++ names, IsName n := by
  obtain ⟨⟨bytes, hfile⟩, -⟩ := hp
  exact (hw.at? ((FileTree.entry?_append hentry names).trans hfile)).1

theorem Leads.canonicalize (hw : t.root.WellFormed) {target : Path} {place : Place}
    (hl : t.locate target = .ok place) (hpresent : place.present = true)
    (hentry : t.entry? place.location = some e) (hp : Leads e target names p) (hne : names ≠ [])
    (hc : t.canonicalize p = .ok q) :
    q = FileTree.pathOf (place.location ++ names) ∧ t.IsCanonical q := by
  obtain ⟨⟨bytes, hfile⟩, rfl⟩ := hp
  obtain ⟨place', hl', -, rfl⟩ := FileTree.canonicalize_eq_ok_iff.mp hc
  obtain rfl := FileTree.locate_below hw hl hpresent hentry hfile hne hl'
  exact ⟨rfl, _, bytes, (FileTree.entry?_append hentry names).trans hfile, rfl⟩

/-- The canonical paths of what is found below a target are those of files, each once. -/
theorem Found.canonical (hw : t.root.WellFormed) {target : Path} {found : List Path}
    (h : Found t target found) :
    (found.filterMap fun f => (t.canonicalize f).toOption).Nodup ∧
      ∀ c ∈ found.filterMap (fun f => (t.canonicalize f).toOption), t.IsCanonical c := by
  have hoption : ∀ {p c}, (t.canonicalize p).toOption = some c → t.canonicalize p = .ok c := by
    intro p c h
    cases hc : t.canonicalize p <;> simp_all [Except.toOption]
  cases h with
  | nothing => simp
  | file hfile =>
    constructor
    · rw [List.filterMap_cons]
      split <;> simp
    · intro c hc
      obtain ⟨p, hp, hcan⟩ := List.mem_filterMap.mp hc
      obtain rfl := List.mem_singleton.mp hp
      exact FileTree.isCanonical_of_canonicalize hfile (hoption hcan)
  | below hs hnodup hfound =>
    obtain ⟨place, hl, hpresent, hentry⟩ := FileTree.stat_eq_ok_iff.mp hs
    constructor
    · refine List.pairwise_filterMap.mpr (hnodup.imp_of_mem fun {p q} hp hq hne c hpc d hqd => ?_)
      obtain ⟨names, hnames, hleads⟩ := hfound p hp
      obtain ⟨names', hnames', hleads'⟩ := hfound q hq
      obtain ⟨rfl, hcanon⟩ := hleads.canonicalize hw hl hpresent hentry hnames (hoption hpc)
      obtain ⟨rfl, hcanon'⟩ := hleads'.canonicalize hw hl hpresent hentry hnames' (hoption hqd)
      intro hsame
      have hlocation := FileTree.eq_of_components_pathOf (hleads.isName hw hentry)
        (hleads'.isName hw hentry) (congrArg Path.components hsame)
      obtain rfl := List.append_cancel_left hlocation
      exact hne (hleads.2.trans hleads'.2.symm)
    · intro c hc
      obtain ⟨p, hp, hcan⟩ := List.mem_filterMap.mp hc
      obtain ⟨names, hne, hleads⟩ := hfound p hp
      exact (hleads.canonicalize hw hl hpresent hentry hne (hoption hcan)).2

end TokenAudit.Sources
