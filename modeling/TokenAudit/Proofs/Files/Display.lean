import TokenAudit.Proofs.Files.Relative

/-! The names by which files are shown: what stands behind the base in their paths, with one mark in
the place of another. Paths without that mark are shown apart. -/

namespace TokenAudit

namespace Path

variable {base p q : Path} {cs : List Char}

theorem tight_trimFront (cs : List Char) : Tight (trimFront cs) := by
  fun_induction trimFront cs with
  | case1 => exact tight_nil
  | case2 => exact tight_nil
  | case3 r ih => exact ih
  | case4 r ih => exact ih
  | case5 _ _ hhere hseparator hskipped => exact ⟨hhere, hseparator, hskipped⟩

theorem ofParts_parts_trimFront (cs : List Char) :
    ofParts (parts (trimFront cs)) = ofParts (parts cs) := by
  fun_induction trimFront cs with
  | case1 => rfl
  | case2 => rfl
  | case3 r ih => exact ih
  | case4 r ih => exact ih
  | case5 => rfl

theorem ofParts_parts_concat_separator (cs : List Char) :
    ofParts (parts (cs ++ ['/'])) = ofParts (parts cs) := by
  have hblank : ofParts (parts []) = [] := rfl
  rw [parts_append, ofParts_append, hblank, List.append_nil]

theorem ofParts_parts_trimBack (r : List Char) :
    ofParts (parts (trimBack r).reverse) = ofParts (parts r.reverse) := by
  fun_induction trimBack r with
  | case1 => rfl
  | case2 => rfl
  | case3 r ih => rw [ih, List.reverse_cons, ofParts_parts_concat_separator]
  | case4 r ih =>
    have hhere : ofParts (parts ['.']) = [] := rfl
    have hsplit : ('.' :: '/' :: r).reverse = r.reverse ++ '/' :: ['.'] := by simp
    rw [ih, hsplit, parts_append, ofParts_append, hhere, List.append_nil, List.reverse_cons,
      ofParts_parts_concat_separator]
  | case5 => rfl

theorem trimBack_suffix (r : List Char) : trimBack r <:+ r := by
  fun_induction trimBack r with
  | case1 => exact List.suffix_refl _
  | case2 => exact List.nil_suffix
  | case3 r ih => exact ih.trans (List.suffix_cons _ _)
  | case4 r ih => exact ih.trans (List.suffix_cons _ _)
  | case5 => exact List.suffix_refl _

theorem Tight.trimEnd (h : Tight cs) : Tight (trimEnd cs) := by
  have hparts : ofParts (parts (Path.trimEnd cs)) = ofParts (parts cs) := by
    rw [Path.trimEnd, ofParts_parts_trimBack, List.reverse_reverse]
  obtain ⟨back, hback⟩ := trimBack_suffix cs.reverse
  have hfront : Path.trimEnd cs ++ back.reverse = cs := by
    rw [Path.trimEnd, ← List.reverse_append, hback, List.reverse_reverse]
  refine ⟨fun hhere => ?_, fun r hr => ?_, fun r hr => ?_⟩
  · -- Nothing but separators and points was there, and a tight text has none of them.
    have hnone : ofParts (parts cs) = [] := by
      rw [← hparts, hhere]
      rfl
    rw [h.eq_nil_of_ofParts hnone] at hhere
    cases hhere
  · rw [hr, List.cons_append] at hfront
    exact h.ne_separator _ hfront.symm
  · rw [hr, List.cons_append, List.cons_append] at hfront
    exact h.ne_skipped _ hfront.symm

theorem components_of_tight (h : Tight cs) :
    (⟨String.ofList cs⟩ : Path).components = ofParts (parts cs) := by
  unfold components
  dsimp only
  rw [String.toList_ofList, h.lead]
  rfl

theorem ofParts_parts_dropPart (cs : List Char) :
    ofParts (parts (dropPart cs)) = (ofParts (parts cs)).tail := by
  have htight := tight_trimFront cs
  have hdrop : dropPart cs = dropPart (trimFront cs) := by
    rw [dropPart, dropPart, htight.trimFront]
  rw [hdrop, ← ofParts_parts_trimFront cs]
  by_cases hnil : trimFront cs = []
  · rw [hnil]
    rfl
  · obtain ⟨part, hne, hhere, hsep, hshape⟩ := htight.exists_part hnil
    have hone : (ofParts [part]).tail = [] := by
      have hlength := length_ofParts_part hne hhere
      rw [← List.length_eq_zero_iff, List.length_tail, hlength]
    rcases hshape with htext | ⟨rest, htext⟩
    · have hgone := dropPart_append hne hhere hsep (Or.inl rfl)
      rw [List.append_nil] at hgone
      rw [htext, hgone, parts_of_no_separator hsep, hone]
      rfl
    · have hgone := dropPart_append hne hhere hsep (Or.inr ⟨rest, rfl⟩)
      have hblank : ofParts (parts ('/' :: rest)) = ofParts (parts rest) := rfl
      obtain ⟨c, hc⟩ := List.length_eq_one_iff.mp (length_ofParts_part hne hhere)
      rw [htext, hgone, hblank, parts_append, ofParts_append, parts_of_no_separator hsep, hc]
      rfl

theorem ofParts_parts_dropComponents (n : Nat) (cs : List Char) :
    ofParts (parts (dropComponents n cs)) = (ofParts (parts cs)).drop n := by
  induction n generalizing cs with
  | zero => rfl
  | succ n ih => rw [dropComponents, ih, ofParts_parts_dropPart, List.drop_tail]

theorem length_leadComponents_lead (cs : List Char) :
    (leadComponents (lead cs).1).length = (lead cs).1.length ∧ (lead cs).1.length ≤ 1 := by
  fun_cases lead cs with
  | case1 r => exact ⟨rfl, Nat.le_refl 1⟩
  | case2 => exact ⟨rfl, Nat.le_refl 1⟩
  | case3 r => exact ⟨rfl, Nat.le_refl 1⟩
  | case4 => exact ⟨rfl, Nat.zero_le 1⟩

theorem eq_of_stripPrefix? (hbase : base.components ≠ []) (h : stripPrefix? base p = some q) :
    q = ⟨String.ofList (trimEnd (trimFront (dropComponents
      (base.components.length - (lead p.text.toList).1.length) (lead p.text.toList).2)))⟩ := by
  unfold stripPrefix? at h
  rw [List.isEmpty_eq_false_iff.mpr hbase, if_neg Bool.false_ne_true] at h
  split_ifs at h
  exact (Option.some.inj h).symm

/-- What is left of a path behind the components of a base are its other components. -/
theorem components_of_stripPrefix? (hbase : base.components ≠ [])
    (h : stripPrefix? base p = some q) :
    q.components = p.components.drop base.components.length := by
  obtain ⟨hlength, hone⟩ := length_leadComponents_lead p.text.toList
  have hpos := List.length_pos_iff.mpr hbase
  have htight := (tight_trimFront (dropComponents
    (base.components.length - (lead p.text.toList).1.length) (lead p.text.toList).2)).trimEnd
  have hlead : (leadComponents (lead p.text.toList).1).drop base.components.length = [] := by
    refine List.drop_eq_nil_of_le ?_
    omega
  have hcomponents : p.components = leadComponents (lead p.text.toList).1 ++
      ofParts (parts (lead p.text.toList).2) := rfl
  rw [eq_of_stripPrefix? hbase h, components_of_tight htight, trimEnd, ofParts_parts_trimBack,
    List.reverse_reverse, ofParts_parts_trimFront, ofParts_parts_dropComponents, hcomponents,
    List.drop_append, hlead, hlength, List.nil_append]

theorem trimFront_suffix (cs : List Char) : trimFront cs <:+ cs := by
  fun_induction trimFront cs with
  | case1 => exact List.suffix_refl _
  | case2 => exact List.nil_suffix
  | case3 r ih => exact ih.trans (List.suffix_cons _ _)
  | case4 r ih => exact (ih.trans (List.suffix_cons _ _)).trans (List.suffix_cons _ _)
  | case5 => exact List.suffix_refl _

theorem dropComponents_suffix (n : Nat) (cs : List Char) : dropComponents n cs <:+ cs := by
  induction n generalizing cs with
  | zero => exact List.suffix_refl _
  | succ n ih => exact (ih _).trans ((List.dropWhile_suffix _).trans (trimFront_suffix cs))

theorem lead_suffix (cs : List Char) : (lead cs).2 <:+ cs := by
  fun_cases lead cs with
  | case1 r => exact List.suffix_cons _ _
  | case2 => exact List.nil_suffix
  | case3 r => exact List.suffix_cons _ _
  | case4 => exact List.suffix_refl _

theorem trimEnd_subset (cs : List Char) : trimEnd cs ⊆ cs := by
  intro c hc
  have hback := (trimBack_suffix cs.reverse).subset (List.mem_reverse.mp hc)
  exact List.mem_reverse.mp hback

/-- Nothing is added to a path when it is shortened. -/
theorem subset_of_stripPrefix? (h : stripPrefix? base p = some q) :
    q.text.toList ⊆ p.text.toList := by
  by_cases hbase : base.components = []
  · unfold stripPrefix? at h
    rw [hbase, List.isEmpty_nil, if_pos rfl] at h
    split_ifs at h
    rw [← Option.some.inj h, String.toList_ofList]
    exact trimEnd_subset _
  · have hrest := (trimFront_suffix _).trans ((dropComponents_suffix
      (base.components.length - (lead p.text.toList).1.length) _).trans (lead_suffix p.text.toList))
    rw [eq_of_stripPrefix? hbase h, String.toList_ofList]
    exact List.Subset.trans (trimEnd_subset _) hrest.subset

/-- No mark in the path from `base` on is shown as another. -/
def ShownAsIs (base p : Path) : Prop := '\\' ∉ ((base.stripPrefix? p).getD p).text.toList

theorem shownAsIs_of_not_mem (base : Path) (h : '\\' ∉ p.text.toList) : ShownAsIs base p := by
  unfold ShownAsIs
  cases hq : stripPrefix? base p with
  | none => exact h
  | some q => exact fun hmem => h (subset_of_stripPrefix? hq hmem)

theorem ShownAsIs.display_eq (h : ShownAsIs base p) :
    base.display p = ((base.stripPrefix? p).getD p).text := by
  unfold display
  rw [← String.toList_inj, String.toList_map]
  refine (List.map_congr_left fun c hc => ?_).trans (List.map_id _)
  have hne : c ≠ '\\' := fun heq => h (heq ▸ hc)
  simp [hne]

/-- A path inside the base is shown by its components from there on. -/
theorem components_display (hinside : base.components <+: p.components)
    (hlast : Tight p.text.toList.reverse) (hplain : ShownAsIs base p) :
    p.components = base.components ++ (⟨base.display p⟩ : Path).components := by
  have hstrip : ∃ q, stripPrefix? base p = some q ∧
      q.components = p.components.drop base.components.length := by
    by_cases hbase : base.components = []
    · have htext : String.ofList (trimEnd p.text.toList) = p.text := by
        rw [trimEnd, hlast.trimBack, List.reverse_reverse, String.ofList_toList]
      refine ⟨p, ?_, ?_⟩
      · rw [stripPrefix?, if_pos (List.isPrefixOf_iff_prefix.mpr hinside), hbase,
          List.isEmpty_nil, if_pos rfl, htext]
      · rw [hbase]
        rfl
    · cases hq : stripPrefix? base p with
      | none =>
        unfold stripPrefix? at hq
        rw [if_pos (List.isPrefixOf_iff_prefix.mpr hinside),
          List.isEmpty_eq_false_iff.mpr hbase] at hq
        cases hq
      | some q => exact ⟨q, rfl, components_of_stripPrefix? hbase hq⟩
  obtain ⟨q, hq, hcomponents⟩ := hstrip
  have hshown : (⟨base.display p⟩ : Path) = q := by
    rw [hplain.display_eq, hq]
    rfl
  rw [hshown, hcomponents]
  exact (List.prefix_iff_eq_append.mp hinside).symm

/-- Paths inside the base are shown in their order. -/
theorem before_display_iff (hp : base.components <+: p.components)
    (hq : base.components <+: q.components) (hplast : Tight p.text.toList.reverse)
    (hqlast : Tight q.text.toList.reverse) (hpplain : ShownAsIs base p)
    (hqplain : ShownAsIs base q) :
    (⟨base.display p⟩ : Path).Before ⟨base.display q⟩ ↔ p.Before q := by
  have hpq := compareComponents_append base.components (⟨base.display p⟩ : Path).components
    (⟨base.display q⟩ : Path).components
  rw [← components_display hp hplast hpplain, ← components_display hq hqlast hqplain] at hpq
  rw [Before, Before, hpq]

end Path

namespace FileTree

open TokenAudit.Path

variable {location names rootLocation : List String}

theorem toList_pathOf (location : List String) :
    (pathOf location).text.toList = '/' :: joined location := by
  simp [pathOf, joined]

theorem isPrefixOf_components (hroot : ∀ n ∈ rootLocation, IsName n)
    (hlocation : ∀ n ∈ location, IsName n) :
    (pathOf rootLocation).components.isPrefixOf (pathOf location).components = true ↔
      rootLocation <+: location := by
  rw [components_pathOf hroot, components_pathOf hlocation, List.isPrefixOf_iff_prefix,
    List.cons_prefix_cons]
  constructor
  · rintro ⟨-, rest, hrest⟩
    obtain ⟨front, back, rfl, hfront, -⟩ := List.map_eq_append_iff.mp hrest.symm
    exact ⟨back, by rw [eq_of_map_name hfront]⟩
  · rintro ⟨rest, rfl⟩
    exact ⟨rfl, rest.map .name, by rw [List.map_append]⟩

/-- Of a path that starts with the names of the base, the text of the others is left. -/
theorem stripPrefix?_pathOf (hroot : ∀ n ∈ rootLocation, IsName n) (hnames : ∀ n ∈ names, IsName n) :
    stripPrefix? (pathOf rootLocation) (pathOf (rootLocation ++ names)) =
      some ⟨"/".intercalate names⟩ := by
  have hall := List.forall_mem_append.mpr ⟨hroot, hnames⟩
  have hinside := (isPrefixOf_components hroot hall).mpr (List.prefix_append _ _)
  have hcomponents := components_pathOf hroot
  have htext : String.ofList (trimEnd (trimFront (dropComponents rootLocation.length
      (joined (rootLocation ++ names))))) = "/".intercalate names := by
    rw [trimFront_dropComponents_joined hroot hnames, trimEnd_joined hnames, joined, String.ofList_toList]
  rw [stripPrefix?, if_pos hinside, hcomponents, toList_pathOf]
  simpa [lead] using congrArg Path.mk htext

theorem stripPrefix?_pathOf_eq_none (hroot : ∀ n ∈ rootLocation, IsName n)
    (hlocation : ∀ n ∈ location, IsName n) (h : ¬ rootLocation <+: location) :
    stripPrefix? (pathOf rootLocation) (pathOf location) = none := by
  rw [stripPrefix?, if_neg (mt (isPrefixOf_components hroot hlocation).mp h)]

theorem mem_joined_append {c : Char} (hc : c ∈ joined names) :
    c ∈ joined (rootLocation ++ names) := by
  by_cases hroot : rootLocation = []
  · simpa [hroot] using hc
  by_cases hnames : names = []
  · rw [hnames, joined_nil] at hc
    cases hc
  rw [joined_append hroot hnames]
  exact List.mem_append_right _ (List.mem_cons_of_mem _ hc)

/-- What is shown of a path that holds no mark to replace: the text behind the base, or all. -/
theorem display_pathOf (hroot : ∀ n ∈ rootLocation, IsName n) (hlocation : ∀ n ∈ location, IsName n)
    (hplain : '\\' ∉ (pathOf location).text.toList) :
    (∃ names, location = rootLocation ++ names ∧
        ((pathOf rootLocation).display (pathOf location)).toList = joined names) ∨
      ((pathOf rootLocation).display (pathOf location)).toList = (pathOf location).text.toList := by
  have hkept : ∀ cs : List Char, '\\' ∉ cs →
      cs.map (fun c => if c == '\\' then '/' else c) = cs := by
    intro cs hcs
    refine (List.map_congr_left fun c hc => ?_).trans (List.map_id _)
    have hne : c ≠ '\\' := fun h => hcs (h ▸ hc)
    simp [hne]
  by_cases hinside : rootLocation <+: location
  · obtain ⟨names, rfl⟩ := hinside
    have hnames := (List.forall_mem_append.mp hlocation).2
    refine Or.inl ⟨names, rfl, ?_⟩
    rw [toList_pathOf] at hplain
    have hplain' : '\\' ∉ joined names := fun h =>
      hplain (List.mem_cons_of_mem _ (mem_joined_append h))
    rw [display, stripPrefix?_pathOf hroot hnames, Option.getD_some, String.toList_map]
    exact hkept _ hplain'
  · refine Or.inr ?_
    rw [display, stripPrefix?_pathOf_eq_none hroot hlocation hinside, Option.getD_none,
      String.toList_map, hkept _ hplain]

theorem eq_of_joined_eq {names' : List String} (hnames : ∀ n ∈ names, IsName n)
    (hnames' : ∀ n ∈ names', IsName n) (h : joined names = joined names') : names = names' := by
  have hpath : pathOf names = pathOf names' := by
    have htext : (pathOf names).text = (pathOf names').text := by
      rw [← String.toList_inj, toList_pathOf, toList_pathOf, h]
    exact congrArg Path.mk htext
  exact eq_of_components_pathOf hnames hnames' (by rw [hpath])

/-- Files whose paths hold no mark to replace are shown apart. -/
theorem eq_of_display_eq {t : FileTree} {p q : Path} (hw : t.root.WellFormed)
    (hroot : ∀ n ∈ rootLocation, IsName n) (hp : t.IsCanonical p) (hq : t.IsCanonical q)
    (hplain : '\\' ∉ p.text.toList) (hplain' : '\\' ∉ q.text.toList)
    (h : (pathOf rootLocation).display p = (pathOf rootLocation).display q) : p = q := by
  obtain ⟨location, _, hentry, rfl⟩ := hp
  obtain ⟨location', _, hentry', rfl⟩ := hq
  have hlocation := (hw.at? hentry).1
  have hlocation' := (hw.at? hentry').1
  -- A text of names starts with no separator, but the text of a whole path does.
  have hapart : ∀ {names location : List String}, (∀ n ∈ names, IsName n) →
      joined names ≠ (pathOf location).text.toList := by
    intro names location hnames heq
    rw [toList_pathOf] at heq
    exact (tight_joined hnames).ne_separator _ heq
  rcases display_pathOf hroot hlocation hplain with ⟨names, rfl, hshown⟩ | hshown <;>
    rcases display_pathOf hroot hlocation' hplain' with ⟨names', rfl, hshown'⟩ | hshown'
  · have hnames := (List.forall_mem_append.mp hlocation).2
    have hnames' := (List.forall_mem_append.mp hlocation').2
    rw [eq_of_joined_eq hnames hnames' (by rw [← hshown, ← hshown', h])]
  · have hnames := (List.forall_mem_append.mp hlocation).2
    exact absurd (by rw [← hshown, ← hshown', h]) (hapart hnames)
  · have hnames' := (List.forall_mem_append.mp hlocation').2
    exact absurd (by rw [← hshown, ← hshown', h]) (hapart hnames')
  · have htext : (pathOf location).text = (pathOf location').text := by
      rw [← String.toList_inj, ← hshown, ← hshown', h]
    exact congrArg Path.mk htext

end FileTree

end TokenAudit
