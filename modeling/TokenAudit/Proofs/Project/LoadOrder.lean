import TokenAudit.Proofs.Files.Display
import TokenAudit.Proofs.Graph.Reachable
import TokenAudit.Proofs.Hierarchy.Imports
import TokenAudit.Proofs.Hierarchy.Preference
import TokenAudit.Proofs.Positions
import TokenAudit.Proofs.Project.Reading

/-! What the order of the sources can change in the contracts of a project. The declarations are
sorted, but of files that are shown alike the imports of the last one count. -/

namespace TokenAudit.Project

open Relation TokenAudit.Graph
open Solidity (Outline)

variable {root p q : Path} {sources edges parsed : List (Path × Source)} {s : Source}
variable {f g : String} {targets : List String}

/-- The declarations of all sources with the imports that are shown of them. -/
def hierarchy (root : Path) (sources : List (Path × Source)) : Hierarchy :=
  { declarations := declarations sources, imports := shownImports root sources }

/-- The contracts when the declarations are taken from `parsed` and the imports from `edges`. -/
def assemble (root : Path) (parsed edges : List (Path × Source)) : List Contract :=
  ((hierarchy root parsed).importing (shownImports root edges)).linearize

theorem shownImports_concat (root : Path) (sources : List (Path × Source)) (p : Path) (s : Source) :
    shownImports root (sources ++ [(p, s)]) =
      (shownImports root sources).filter (·.1 ≠ root.display p) ++
        [(root.display p, s.imports.map root.display)] := by
  rw [shownImports, List.foldl_append]
  rfl

/-- What is imported is what one of the sources shown so imports. -/
theorem exists_of_mem_shownImports (h : (f, targets) ∈ shownImports root sources) :
    ∃ p s, (p, s) ∈ sources ∧ root.display p = f ∧ targets = s.imports.map root.display := by
  induction sources using List.reverseRecOn with
  | nil => cases h
  | append_singleton sources source ih =>
    obtain ⟨p, s⟩ := source
    rw [shownImports_concat, List.mem_append, List.mem_singleton] at h
    rcases h with h | h
    · obtain ⟨q, s', hq, hshown⟩ := ih (List.mem_filter.mp h).1
      exact ⟨q, s', List.mem_append_left _ hq, hshown⟩
    · obtain ⟨rfl, rfl⟩ := Prod.mk.inj h
      exact ⟨p, s, by simp, rfl, rfl⟩

theorem exists_mem_shownImports (root : Path) (h : (p, s) ∈ sources) :
    ∃ targets, (root.display p, targets) ∈ shownImports root sources := by
  induction sources using List.reverseRecOn with
  | nil => cases h
  | append_singleton sources source ih =>
    obtain ⟨q, s'⟩ := source
    rw [shownImports_concat]
    by_cases hpq : root.display p = root.display q
    · exact ⟨s'.imports.map root.display, by rw [hpq]; simp⟩
    · have hp : (p, s) ∈ sources := by
        rcases List.mem_append.mp h with h | h
        · exact h
        · obtain ⟨rfl, -⟩ := Prod.mk.inj (List.mem_singleton.mp h)
          exact absurd rfl hpq
      obtain ⟨targets, htargets⟩ := ih hp
      refine ⟨targets, List.mem_append_left _ (List.mem_filter.mpr ⟨htargets, ?_⟩)⟩
      simpa using hpq

/-- Some source that is shown as `f` imports one that is shown as `g`. -/
def Leads (root : Path) (sources : List (Path × Source)) (f g : String) : Prop :=
  ∃ p s, (p, s) ∈ sources ∧ root.display p = f ∧ g ∈ s.imports.map root.display

/-- All sources that are shown as `f` import the same, as it is shown. -/
def Settled (root : Path) (sources : List (Path × Source)) (f : String) : Prop :=
  ∀ p s q s', (p, s) ∈ sources → (q, s') ∈ sources → root.display p = f → root.display q = f →
    ∀ g ∈ s.imports.map root.display, g ∈ s'.imports.map root.display

theorem leads_of_imports (h : (shownImports root sources).Imports f g) :
    Leads root sources f g := by
  obtain ⟨targets, htargets, hg⟩ := h
  obtain ⟨p, s, hp, hf, rfl⟩ := exists_of_mem_shownImports htargets
  exact ⟨p, s, hp, hf, hg⟩

theorem Settled.imports (hs : Settled root sources f) (h : Leads root sources f g) :
    (shownImports root sources).Imports f g := by
  obtain ⟨p, s, hp, rfl, hg⟩ := h
  obtain ⟨targets, htargets⟩ := exists_mem_shownImports root hp
  obtain ⟨q, s', hq, hshown, rfl⟩ := exists_of_mem_shownImports htargets
  exact ⟨_, htargets, hs p s q s' hp hq rfl hshown g hg⟩

/-- Where all files on the way are settled, what is visible is what any source shown so leads
to. -/
theorem mem_visible_iff (hs : ∀ g, ReflTransGen (Leads root sources) f g → Settled root sources g) :
    g ∈ (shownImports root sources).visible f ↔ TransGen (Leads root sources) f g := by
  rw [FileImports.mem_visible_iff]
  constructor
  · exact fun h => h.lift id fun _ _ => leads_of_imports
  · intro h
    induction h with
    | single h => exact .single ((hs f .refl).imports h)
    | tail hpath h ih => exact ih.tail ((hs _ hpath.to_reflTransGen).imports h)

theorem leads_perm (he : edges.Perm sources) : Leads root edges f g ↔ Leads root sources f g := by
  simp only [Leads, he.mem_iff]

theorem settled_perm (he : edges.Perm sources) : Settled root edges f ↔ Settled root sources f := by
  simp only [Settled, he.mem_iff]

/-- Wherever several declarations of other files have the name of a base, the files on all ways
from the declaration are settled. -/
def Decided (root : Path) (sources : List (Path × Source)) : Prop :=
  ∀ d, ∀ base ∈ (hierarchy root sources).basesOf d, (hierarchy root sources).Unclear d base →
    ∀ f, ReflTransGen (Leads root sources) ((hierarchy root sources).fileOf d) f →
      Settled root sources f

theorem mem_visible_perm (he : edges.Perm sources)
    (hs : ∀ g, ReflTransGen (Leads root sources) f g → Settled root sources g) :
    g ∈ (shownImports root edges).visible f ↔ TransGen (Leads root sources) f g := by
  have hleads : Leads root edges = Leads root sources :=
    funext₂ fun _ _ => propext (leads_perm he)
  rw [mem_visible_iff (hleads ▸ fun g hg => (settled_perm he).mpr (hs g hg)), hleads]

/-- In which order the imports come makes no difference. -/
theorem assemble_edges (hdecided : Decided root sources) (he : edges.Perm sources) :
    assemble root sources edges = contractsOf root sources := by
  refine Hierarchy.linearize_importing fun d base hbase =>
    Hierarchy.resolve?_importing fun hunclear f => ?_
  have hs := hdecided d base hbase hunclear
  exact (mem_visible_perm he hs).trans (mem_visible_iff hs).symm

/-- Sources with distinct components are sorted in one way. -/
theorem declarations_perm (hnodup : (sources.map (·.1)).Nodup)
    (hinj : ∀ a ∈ sources, ∀ b ∈ sources, a.1.components = b.1.components → a.1 = b.1)
    (hp : parsed.Perm sources) : declarations parsed = declarations sources := by
  have hsort : parsed.mergeSort (fun a b => Path.le a.1 b.1) =
      sources.mergeSort fun a b => Path.le a.1 b.1 := by
    refine mergeSort_eq_of_perm (fun a b c hab hbc => Path.le_trans hab hbc)
      (fun a b => Path.le_total a.1 b.1) (fun a ha b hb hab hba => ?_) hp
    exact List.inj_on_of_nodup_map hnodup ha hb
      (hinj a ha b hb (Path.components_eq_of_le hab hba))
  rw [declarations, declarations, hsort]

theorem decided_of_agree
    (hagree : ∀ a ∈ sources, ∀ b ∈ sources, root.display a.1 = root.display b.1 →
      ∀ g ∈ a.2.imports.map root.display, g ∈ b.2.imports.map root.display) :
    Decided root sources := by
  intro d base _ _ f _ p s q s' hp hq hf hf'
  exact hagree _ hp _ hq (hf.trans hf'.symm)

/-- Sources that are shown apart have nothing to agree on. -/
theorem decided_of_display_inj (hnodup : (sources.map (·.1)).Nodup)
    (hinj : ∀ a ∈ sources, ∀ b ∈ sources, root.display a.1 = root.display b.1 → a.1 = b.1) :
    Decided root sources := by
  refine decided_of_agree fun a ha b hb hshown => ?_
  rw [List.inj_on_of_nodup_map hnodup ha hb (hinj a ha b hb hshown)]
  exact fun g hg => hg

theorem exists_names_of_locate {t : FileTree} {p : Project} {seeds : List Path}
    (hw : t.root.WellFormed) (hstart : ∀ n ∈ t.workingDirectory, IsName n)
    (hl : p.locate t = .ok (root, seeds)) :
    ∃ location, (∀ n ∈ location, IsName n) ∧ root = FileTree.pathOf location := by
  obtain ⟨-, -, h⟩ := bind_eq_ok.mp hl
  obtain ⟨root', hroot, h⟩ := bind_eq_ok.mp h
  dsimp only at h
  split at h
  · cases h
  · obtain rfl := (Prod.mk.inj (Except.ok.inj h)).1
    exact FileTree.exists_names_of_canonicalize hw hstart (mapError_eq_ok.mp hroot)

/-- The contracts of a project do not depend on the orders in which declarations and imports are
taken from its sources, unless files are shown alike that import differently and a base name has to
be looked for in what they import. That does not happen if no path holds a backslash. -/
theorem loadBy_in_any_order (outline : String → List Char → Outline) {t : FileTree} {p : Project}
    {seeds : List Path} (hw : t.root.WellFormed) (hstart : ∀ n ∈ t.workingDirectory, IsName n)
    (hl : p.locate t = .ok (root, seeds)) :
    let sources := Source.closure outline t (Remappings.load t root) root seeds
    ((∀ a ∈ sources, '\\' ∉ a.1.text.toList) → Decided root sources) ∧
      (Decided root sources → ∀ parsed edges, parsed.Perm sources → edges.Perm sources →
        p.loadBy outline t =
          .ok { engine := "tree-sitter-solidity", contracts := assemble root parsed edges }) := by
  intro sources
  obtain ⟨hseeds, hcanonicalSeeds⟩ := canonical_of_locate hw hl
  have hnodup : (sources.map (·.1)).Nodup := Source.nodup_closure hseeds
  have hcanonical : ∀ a ∈ sources, t.IsCanonical a.1 :=
    fun a ha => (Source.mem_closure_iff.mp ha).1.isCanonical hcanonicalSeeds
  constructor
  · intro hplain
    obtain ⟨location, hlocation, rfl⟩ := exists_names_of_locate hw hstart hl
    exact decided_of_display_inj hnodup fun a ha b hb hshown =>
      FileTree.eq_of_display_eq hw hlocation (hcanonical a ha) (hcanonical b hb) (hplain a ha)
        (hplain b hb) hshown
  · intro hdecided parsed edges hp he
    have hdeclarations := declarations_perm hnodup
      (fun a ha b hb => (hcanonical a ha).components_inj hw (hcanonical b hb)) hp
    rw [loadBy_of_locate hl, ← assemble_edges hdecided he]
    simp only [assemble, hierarchy, hdeclarations]
    rfl

/-- Two files that are shown alike. The inner one imports what the outer one does if they agree, and
else another declaration of the base that the outer one uses. -/
def twins (agree : Bool) : FileTree where
  root := .directory
    [("a", .directory
        [("b.sol", .file (Text.toBytes (if agree then "import \"../x.sol\";import \"./b.sol\";"
          else "import \"../y.sol\";").toList))]),
      ("a\\b.sol",
        .file (Text.toBytes "import \"./x.sol\";import \"./a/b.sol\";contract T is B{}".toList)),
      ("x.sol", .file (Text.toBytes "import \"./y.sol\";contract B is P{}".toList)),
      ("y.sol", .file (Text.toBytes "contract B is Q{}".toList))]

def twinProject : Project where
  target := ⟨"/a\\b.sol"⟩
  root := ⟨"/"⟩

def outerTwin : Path × Source :=
  (⟨"/a\\b.sol"⟩, ⟨[⟨"T", .contract, "a/b.sol", 1, ["B"], []⟩], [⟨"/x.sol"⟩, ⟨"/a/b.sol"⟩]⟩)

def innerTwin (agree : Bool) : Path × Source :=
  (⟨"/a/b.sol"⟩, ⟨[], if agree then [⟨"/x.sol"⟩, ⟨"/a/b.sol"⟩] else [⟨"/y.sol"⟩]⟩)

def firstBase : Path × Source :=
  (⟨"/x.sol"⟩, ⟨[⟨"B", .contract, "x.sol", 1, ["P"], []⟩], [⟨"/y.sol"⟩]⟩)

def secondBase : Path × Source :=
  (⟨"/y.sol"⟩, ⟨[⟨"B", .contract, "y.sol", 1, ["Q"], []⟩], []⟩)

/-- What the files hold, in the order in which they are met. -/
def twinSources (agree : Bool) : List (Path × Source) :=
  [outerTwin, firstBase, innerTwin agree, secondBase]

theorem twins_wellFormed (agree : Bool) : (twins agree).root.WellFormed := by
  refine .directory (by decide +revert) (by decide +revert) ?_
  simp only [List.forall_mem_cons, List.not_mem_nil, false_imp_iff, implies_true, and_true]
  refine ⟨.directory (by decide +revert) (by decide +revert) ?_, .file _, .file _, .file _⟩
  simp only [List.forall_mem_cons, List.not_mem_nil, false_imp_iff, implies_true, and_true]
  exact .file _

theorem twins_whereabouts : ∀ agree,
    (twins agree).whereabouts? ⟨"/"⟩ = some [] ∧
      (twins agree).whereabouts? ⟨"/a\\b.sol"⟩ = some ["a\\b.sol"] ∧
      (twins agree).whereabouts? ⟨"/x.sol"⟩ = some ["x.sol"] ∧
      (twins agree).whereabouts? ⟨"/a/b.sol"⟩ = some ["a", "b.sol"] ∧
      (twins agree).whereabouts? ⟨"/y.sol"⟩ = some ["y.sol"] := by
  decide

theorem twins_resolve (agree : Bool) (rs : Remappings) :
    Import.resolve? (twins agree) rs ⟨"/"⟩ ⟨"/a\\b.sol"⟩ "./x.sol" = some ⟨"/x.sol"⟩ ∧
      Import.resolve? (twins agree) rs ⟨"/"⟩ ⟨"/a\\b.sol"⟩ "./a/b.sol" = some ⟨"/a/b.sol"⟩ ∧
      Import.resolve? (twins agree) rs ⟨"/"⟩ ⟨"/x.sol"⟩ "./y.sol" = some ⟨"/y.sol"⟩ ∧
      Import.resolve? (twins agree) rs ⟨"/"⟩ ⟨"/a/b.sol"⟩ "../x.sol" = some ⟨"/x.sol"⟩ ∧
      Import.resolve? (twins agree) rs ⟨"/"⟩ ⟨"/a/b.sol"⟩ "./b.sol" = some ⟨"/a/b.sol"⟩ ∧
      Import.resolve? (twins agree) rs ⟨"/"⟩ ⟨"/a/b.sol"⟩ "../y.sol" = some ⟨"/y.sol"⟩ := by
  have hfound : ∀ agree, (twins agree).whereabouts? ⟨"/./x.sol"⟩ = some ["x.sol"] ∧
      (twins agree).whereabouts? ⟨"/./a/b.sol"⟩ = some ["a", "b.sol"] ∧
      (twins agree).whereabouts? ⟨"/./y.sol"⟩ = some ["y.sol"] ∧
      (twins agree).whereabouts? ⟨"/a/../x.sol"⟩ = some ["x.sol"] ∧
      (twins agree).whereabouts? ⟨"/a/./b.sol"⟩ = some ["a", "b.sol"] ∧
      (twins agree).whereabouts? ⟨"/a/../y.sol"⟩ = some ["y.sol"] := by
    decide
  obtain ⟨hx, hb, hy, hbx, hbb, hby⟩ := hfound agree
  exact ⟨Import.resolve?_of_point (by decide) (by decide) hx rfl,
    Import.resolve?_of_point (by decide) (by decide) hb rfl,
    Import.resolve?_of_point (by decide) (by decide) hy rfl,
    Import.resolve?_of_point (by decide) (by decide) hbx rfl,
    Import.resolve?_of_point (by decide) (by decide) hbb rfl,
    Import.resolve?_of_point (by decide) (by decide) hby rfl⟩

theorem load?_twins (agree : Bool) (rs : Remappings) : ∀ a ∈ twinSources agree,
    Source.load? Outline.read (twins agree) rs ⟨"/"⟩ a.1 = some a.2 := by
  obtain ⟨-, hta, htx, htb, hty⟩ := twins_whereabouts agree
  obtain ⟨hax, hab, hxy, hbx, hbb, hby⟩ := twins_resolve agree rs
  simp only [twinSources, outerTwin, innerTwin, firstBase, secondBase, List.forall_mem_cons,
    List.not_mem_nil, false_imp_iff, implies_true, and_true]
  refine ⟨?outer, ?first, ?inner, ?second⟩
  case outer =>
    exact Source.load?_of_whereabouts? ["./x.sol", "./a/b.sol"] hta rfl (by decide +kernel)
      (by decide +kernel) (by simp [hax, hab])
  case first =>
    exact Source.load?_of_whereabouts? ["./y.sol"] htx rfl (by decide +kernel)
      (by decide +kernel) (by simp [hxy])
  case inner =>
    cases agree with
    | true =>
      exact Source.load?_of_whereabouts? ["../x.sol", "./b.sol"] htb rfl (by decide +kernel)
        (by decide +kernel) (by simp [hbx, hbb])
    | false =>
      exact Source.load?_of_whereabouts? ["../y.sol"] htb rfl (by decide +kernel)
        (by decide +kernel) (by simp [hby])
  case second =>
    exact Source.load?_of_whereabouts? [] hty rfl (by decide +kernel) (by decide +kernel) rfl

theorem locate_twins (agree : Bool) :
    twinProject.locate (twins agree) = .ok (⟨"/"⟩, [⟨"/a\\b.sol"⟩]) := by
  obtain ⟨hroot, hta, -⟩ := twins_whereabouts agree
  have hsource : twinProject.target.isSolidity = true := by decide
  exact locate_of_source hta rfl hsource rfl hroot

theorem closure_twins (agree : Bool) (rs : Remappings) :
    Source.closure Outline.read (twins agree) rs ⟨"/"⟩ [⟨"/a\\b.sol"⟩] = twinSources agree := by
  rw [Source.closure_eq_of_table (load?_twins agree rs)]
  · revert agree
    decide +kernel
  · revert agree
    decide
  · revert agree
    decide

theorem twins_ordered : ∀ agree,
    (twinSources agree).Perm [innerTwin agree, outerTwin, firstBase, secondBase] ∧
      ([innerTwin agree, outerTwin, firstBase, secondBase].map (·.1)).Nodup ∧
      (∀ a ∈ [innerTwin agree, outerTwin, firstBase, secondBase],
        ∀ b ∈ [innerTwin agree, outerTwin, firstBase, secondBase],
          a.1.components = b.1.components → a.1 = b.1) ∧
      [innerTwin agree, outerTwin, firstBase, secondBase].Pairwise fun a b =>
        Path.le a.1 b.1 = true := by
  decide

theorem declarations_twins (agree : Bool) (hp : parsed.Perm (twinSources agree)) :
    declarations parsed =
      [⟨"T", .contract, "a/b.sol", 1, ["B"], []⟩, ⟨"B", .contract, "x.sol", 1, ["P"], []⟩,
        ⟨"B", .contract, "y.sol", 1, ["Q"], []⟩] := by
  obtain ⟨hperm, hnodup, hinj, hsorted⟩ := twins_ordered agree
  rw [declarations_perm hnodup hinj (hp.trans hperm), declarations,
    List.mergeSort_of_pairwise hsorted]
  simp [innerTwin, outerTwin, firstBase, secondBase, byLine]

theorem display_twins :
    Path.display ⟨"/"⟩ ⟨"/a\\b.sol"⟩ = "a/b.sol" ∧ Path.display ⟨"/"⟩ ⟨"/a/b.sol"⟩ = "a/b.sol" ∧
      Path.display ⟨"/"⟩ ⟨"/x.sol"⟩ = "x.sol" ∧ Path.display ⟨"/"⟩ ⟨"/y.sol"⟩ = "y.sol" := by
  have hstrip : Path.stripPrefix? ⟨"/"⟩ ⟨"/a\\b.sol"⟩ = some ⟨"a\\b.sol"⟩ ∧
      Path.stripPrefix? ⟨"/"⟩ ⟨"/a/b.sol"⟩ = some ⟨"a/b.sol"⟩ ∧
      Path.stripPrefix? ⟨"/"⟩ ⟨"/x.sol"⟩ = some ⟨"x.sol"⟩ ∧
      Path.stripPrefix? ⟨"/"⟩ ⟨"/y.sol"⟩ = some ⟨"y.sol"⟩ := by
    decide
  obtain ⟨ha, hb, hx, hy⟩ := hstrip
  simp only [Path.display, ha, hb, hx, hy, Option.getD_some]
  decide +kernel

/-- What is shown of the imports if the outer one of the two comes last, and if the inner one
does. -/
theorem shownImports_twins (agree : Bool) :
    shownImports ⟨"/"⟩ (twinSources agree).reverse =
        [("y.sol", []), ("x.sol", ["y.sol"]), ("a/b.sol", ["x.sol", "a/b.sol"])] ∧
      shownImports ⟨"/"⟩ (twinSources agree) =
        [("x.sol", ["y.sol"]),
          ("a/b.sol", if agree then ["x.sol", "a/b.sol"] else ["y.sol"]), ("y.sol", [])] := by
  obtain ⟨ha, hb, hx, hy⟩ := display_twins
  cases agree <;>
    simp [shownImports, twinSources, innerTwin, outerTwin, firstBase, secondBase, ha, hb, hx, hy]

theorem assemble_twins (agree : Bool) (hp : parsed.Perm (twinSources agree)) :
    assemble ⟨"/"⟩ parsed edges =
      ({ declarations :=
          [⟨"T", .contract, "a/b.sol", 1, ["B"], []⟩, ⟨"B", .contract, "x.sol", 1, ["P"], []⟩,
            ⟨"B", .contract, "y.sol", 1, ["Q"], []⟩]
         imports := shownImports ⟨"/"⟩ edges } : Hierarchy).linearize := by
  rw [assemble, hierarchy, declarations_twins agree hp]
  rfl

theorem decided_twins : Decided ⟨"/"⟩ (twinSources true) := by
  refine decided_of_agree ?_
  obtain ⟨ha, hb, hx, hy⟩ := display_twins
  simp [twinSources, innerTwin, outerTwin, firstBase, secondBase, ha, hb, hx, hy]

/-- Two files that agree may be shown alike, also where a base name is looked for in what they
import. -/
theorem loadBy_in_any_order_twins :
    (twins true).root.WellFormed ∧
      twinProject.locate (twins true) = .ok (⟨"/"⟩, [⟨"/a\\b.sol"⟩]) ∧
      Path.display ⟨"/"⟩ ⟨"/a\\b.sol"⟩ = Path.display ⟨"/"⟩ ⟨"/a/b.sol"⟩ ∧
      Decided ⟨"/"⟩ (twinSources true) ∧
      (hierarchy ⟨"/"⟩ (twinSources true)).Unclear 0 "B" ∧
      twinProject.loadBy Outline.read (twins true) = .ok
        { engine := "tree-sitter-solidity",
          contracts := assemble ⟨"/"⟩ (twinSources true).reverse (twinSources true).reverse } ∧
      (assemble ⟨"/"⟩ (twinSources true).reverse (twinSources true).reverse).map
        (·.inheritance) = [["B", "P"], ["P"], ["Q"]] := by
  have hl := locate_twins true
  have hclosure := closure_twins true (Remappings.load (twins true) ⟨"/"⟩)
  have hperm : (twinSources true).reverse.Perm (Source.closure Outline.read (twins true)
      (Remappings.load (twins true) ⟨"/"⟩) ⟨"/"⟩ [⟨"/a\\b.sol"⟩]) := by
    rw [hclosure]
    exact List.reverse_perm _
  refine ⟨twins_wellFormed true, hl, display_twins.1.trans display_twins.2.1.symm, decided_twins,
    ?_, ?_, ?_⟩
  · rw [hierarchy, declarations_twins true (.refl _)]
    exact ⟨by decide, by decide⟩
  · obtain ⟨-, hload⟩ := loadBy_in_any_order Outline.read (twins_wellFormed true) (by decide) hl
    exact hload (hclosure ▸ decided_twins) _ _ hperm hperm
  · rw [assemble_twins true (List.reverse_perm _), (shownImports_twins true).1]
    decide +kernel

/-- If the two import different files, the base of the outer one depends on which comes last. -/
theorem twins_depend_on_order :
    (twins false).root.WellFormed ∧
      twinProject.locate (twins false) = .ok (⟨"/"⟩, [⟨"/a\\b.sol"⟩]) ∧
      ∃ sources, sources = Source.closure Outline.read (twins false)
          (Remappings.load (twins false) ⟨"/"⟩) ⟨"/"⟩ [⟨"/a\\b.sol"⟩] ∧
        sources.reverse.Perm sources ∧
        (assemble ⟨"/"⟩ sources sources).map (·.inheritance) = [["B", "Q"], ["P"], ["Q"]] ∧
        (assemble ⟨"/"⟩ sources sources.reverse).map (·.inheritance) =
          [["B", "P"], ["P"], ["Q"]] ∧
        assemble ⟨"/"⟩ sources sources ≠ assemble ⟨"/"⟩ sources sources.reverse := by
  have hinner : (assemble ⟨"/"⟩ (twinSources false) (twinSources false)).map (·.inheritance) =
      [["B", "Q"], ["P"], ["Q"]] := by
    rw [assemble_twins false (.refl _), (shownImports_twins false).2]
    decide +kernel
  have houter : (assemble ⟨"/"⟩ (twinSources false) (twinSources false).reverse).map
      (·.inheritance) = [["B", "P"], ["P"], ["Q"]] := by
    rw [assemble_twins false (.refl _), (shownImports_twins false).1]
    decide +kernel
  refine ⟨twins_wellFormed false, locate_twins false, _, (closure_twins false _).symm,
    List.reverse_perm _, hinner, houter, fun h => ?_⟩
  rw [h, houter] at hinner
  simp at hinner

end TokenAudit.Project
