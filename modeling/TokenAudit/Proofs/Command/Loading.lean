import TokenAudit.Command.Check
import TokenAudit.Proofs.Project.Closure
import TokenAudit.Proofs.Project.Settings

/-! Where the command gets its model from, and all that can stand in the way. -/

namespace TokenAudit

open Solidity (Outline)

namespace Snapshot

variable {t : FileTree} {path : Path} {text : List Char}

theorem load_of_unreadable {e : FileError} (hread : t.readText path = .error e) :
    load t path = .error (.unusable path e) := by
  unfold load
  rw [hread]
  rfl

theorem load_of_text (hread : t.readText path = .ok text) :
    load t path = (Json.decodeText (decode .text) text).mapError (.badSnapshot path) := by
  unfold load
  rw [hread]
  rfl

end Snapshot

namespace Project

variable {t : FileTree} {p : Project} {e : FileError} {entry : Entry} {base : Path}

/-- The directory that a root stands for. -/
def directoryOf (root : Path) : Path := if root.text = "" then ⟨"."⟩ else root

/-- The canonical paths of the sources with which a project starts. -/
def seedsOf (t : FileTree) (target : Path) (patterns : List String) : List Path :=
  (Sources.find t target patterns).filterMap fun f => (t.canonicalize f).toOption

theorem load_of_stat_error (hs : t.stat p.target = .error e) :
    p.load t = .error (.unusable p.target e) := by
  unfold load loadBy locate
  rw [hs]
  rfl

theorem load_of_canonicalize_error (hs : t.stat p.target = .ok entry)
    (hc : t.canonicalize (directoryOf p.root) = .error e) :
    p.load t = .error (.unusable p.root e) := by
  unfold directoryOf at hc
  simp only [load, loadBy, locate, hs, String.isEmpty_iff, hc]
  rfl

theorem load_of_no_seeds (hs : t.stat p.target = .ok entry)
    (hc : t.canonicalize (directoryOf p.root) = .ok base)
    (hseeds : seedsOf t p.target p.ignorePatterns = []) :
    p.load t = .error (.noSources p.target) := by
  unfold directoryOf at hc
  unfold seedsOf at hseeds
  simp only [load, loadBy, locate, hs, String.isEmpty_iff, hc, hseeds]
  rfl

theorem load_of_seeds (hs : t.stat p.target = .ok entry)
    (hc : t.canonicalize (directoryOf p.root) = .ok base)
    (hseeds : seedsOf t p.target p.ignorePatterns ≠ []) :
    p.load t = .ok
      { engine := "tree-sitter-solidity"
        contracts := contractsOf base (Source.closure Outline.read t (Remappings.load t base) base
          (seedsOf t p.target p.ignorePatterns)) } := by
  refine loadBy_of_locate ?_
  unfold directoryOf at hc
  have hsome : ((Sources.find t p.target p.ignorePatterns).filterMap
      fun f => (t.canonicalize f).toOption).isEmpty = false := List.isEmpty_eq_false_iff.mpr hseeds
  simp only [locate, hs, String.isEmpty_iff, hc, hsome]
  rfl

end Project

namespace Check

variable {t : FileTree} {a : Arguments} {root : Path} {r : Except LoadError Snapshot}

/-- The root of the project: the one that is given, or else the target if it is a directory, or else
the directory in front of its name. -/
inductive IsRoot (t : FileTree) (a : Arguments) : Path → Prop
  | given {text} (hr : a.root = some text) : IsRoot t a ⟨text⟩
  | target (hr : a.root = none) (hd : t.isDirectory ⟨a.target⟩ = true) : IsRoot t a ⟨a.target⟩
  | parent {p : Path} (hr : a.root = none) (hd : t.isDirectory ⟨a.target⟩ = false)
      (hp : (⟨a.target⟩ : Path).parent? = some p) (hne : p.text ≠ "") : IsRoot t a p
  | here (hr : a.root = none) (hd : t.isDirectory ⟨a.target⟩ = false)
      (hnone : ∀ p, (⟨a.target⟩ : Path).parent? = some p → p.text = "") : IsRoot t a ⟨"."⟩

theorem isRoot_rootOf (t : FileTree) (a : Arguments) : IsRoot t a (rootOf t a) := by
  unfold rootOf defaultRoot
  cases hr : a.root with
  | some text => exact .given hr
  | none =>
    dsimp only
    split_ifs with hd
    · exact .target hr hd
    · have hd' : t.isDirectory ⟨a.target⟩ = false := Bool.eq_false_iff.mpr hd
      cases hp : (⟨a.target⟩ : Path).parent? with
      | none =>
        refine .here hr hd' fun p h => ?_
        rw [hp] at h
        cases h
      | some p =>
        dsimp only
        split_ifs with hempty
        · refine .here hr hd' fun q hq => ?_
          rw [← Option.some.inj (hp.symm.trans hq)]
          exact String.isEmpty_iff.mp hempty
        · exact .parent hr hd' hp fun h => hempty (String.isEmpty_iff.mpr h)

theorem isRoot_iff : IsRoot t a root ↔ root = rootOf t a := by
  constructor
  · intro h
    unfold rootOf defaultRoot
    cases h with
    | given hr => rw [hr]
    | target hr hd => rw [hr, hd, if_pos rfl]
    | parent hr hd hp hne =>
      have hempty : ¬ root.text.isEmpty = true := fun h => hne (String.isEmpty_iff.mp h)
      rw [hr, hd, hp, if_neg Bool.false_ne_true]
      dsimp only
      rw [if_neg hempty]
    | here hr hd hnone =>
      rw [hr, hd, if_neg Bool.false_ne_true]
      cases hp : (⟨a.target⟩ : Path).parent? with
      | none => rfl
      | some p =>
        dsimp only
        rw [if_pos (String.isEmpty_iff.mpr (hnone p hp))]
  · intro h
    rw [h]
    exact isRoot_rootOf t a

/-- The project is there, with its canonical root and the sources with which it starts. -/
inductive Starts (t : FileTree) (a : Arguments) (base : Path) (seeds : List Path) : Prop
  | intro {entry root s} (hs : t.stat ⟨a.target⟩ = .ok entry) (hroot : IsRoot t a root)
      (hc : t.canonicalize (Project.directoryOf root) = .ok base) (hsettings : Settings.At t root s)
      (hseeds : Project.seedsOf t ⟨a.target⟩ s.ignorePatterns = seeds) : Starts t a base seeds

/-- The model comes from a snapshot if one is named, which can be read and decoded or not. Else it
comes from the sources of the project, which can lack its target, its root or all sources. -/
inductive Loads (t : FileTree) (a : Arguments) : Except LoadError Snapshot → Prop
  | unreadable {path e} (hm : a.model = some path) (hread : t.readText ⟨path⟩ = .error e) :
      Loads t a (.error (.unusable ⟨path⟩ e))
  | undecodable {path text e} (hm : a.model = some path) (hread : t.readText ⟨path⟩ = .ok text)
      (hdecode : Json.decodeText (Snapshot.decode .text) text = .error e) :
      Loads t a (.error (.badSnapshot ⟨path⟩ e))
  | snapshot {path text model} (hm : a.model = some path) (hread : t.readText ⟨path⟩ = .ok text)
      (hdecode : Json.decodeText (Snapshot.decode .text) text = .ok model) : Loads t a (.ok model)
  | noTarget {e} (hm : a.model = none) (hs : t.stat ⟨a.target⟩ = .error e) :
      Loads t a (.error (.unusable ⟨a.target⟩ e))
  | noRoot {entry root e} (hm : a.model = none) (hs : t.stat ⟨a.target⟩ = .ok entry)
      (hroot : IsRoot t a root) (hc : t.canonicalize (Project.directoryOf root) = .error e) :
      Loads t a (.error (.unusable root e))
  | noSources {base} (hm : a.model = none) (hstart : Starts t a base []) :
      Loads t a (.error (.noSources ⟨a.target⟩))
  | project {base seeds} (hm : a.model = none) (hstart : Starts t a base seeds)
      (hseeds : seeds ≠ []) :
      Loads t a (.ok
        { engine := "tree-sitter-solidity"
          contracts := Project.contractsOf base
            (Source.closure Outline.read t (Remappings.load t base) base seeds) })

/-- The project that the arguments name, with the settings at its root. -/
def projectOf (t : FileTree) (a : Arguments) : Project where
  target := ⟨a.target⟩
  root := rootOf t a
  ignorePatterns := (Settings.load t (rootOf t a)).ignorePatterns

theorem loads_load_project (hm : a.model = none) : Loads t a ((projectOf t a).load t) := by
  have hroot := isRoot_rootOf t a
  have hsettings := Settings.at_load t (rootOf t a)
  cases hs : t.stat ⟨a.target⟩ with
  | error e =>
    have hload : (projectOf t a).load t = .error (.unusable ⟨a.target⟩ e) :=
      Project.load_of_stat_error hs
    rw [hload]
    exact .noTarget hm hs
  | ok entry =>
    cases hc : t.canonicalize (Project.directoryOf (rootOf t a)) with
    | error e =>
      have hload : (projectOf t a).load t = .error (.unusable (rootOf t a) e) :=
        Project.load_of_canonicalize_error hs hc
      rw [hload]
      exact .noRoot hm hs hroot hc
    | ok base =>
      have hstart := Starts.intro hs hroot hc hsettings rfl
      by_cases hseeds : Project.seedsOf t ⟨a.target⟩ (projectOf t a).ignorePatterns = []
      · have hload : (projectOf t a).load t = .error (.noSources ⟨a.target⟩) :=
          Project.load_of_no_seeds hs hc hseeds
        rw [hload]
        exact .noSources hm (.intro hs hroot hc hsettings hseeds)
      · have hload : (projectOf t a).load t = .ok
            { engine := "tree-sitter-solidity"
              contracts := Project.contractsOf base (Source.closure Outline.read t
                (Remappings.load t base) base
                (Project.seedsOf t ⟨a.target⟩ (projectOf t a).ignorePatterns)) } :=
          Project.load_of_seeds hs hc hseeds
        rw [hload]
        exact .project hm hstart hseeds

theorem loads_load_snapshot {path : String} (hm : a.model = some path) :
    Loads t a (Snapshot.load t ⟨path⟩) := by
  cases hread : t.readText ⟨path⟩ with
  | error e =>
    rw [Snapshot.load_of_unreadable hread]
    exact .unreadable hm hread
  | ok text =>
    rw [Snapshot.load_of_text hread]
    cases hdecode : Json.decodeText (Snapshot.decode .text) text with
    | error e => exact .undecodable hm hread hdecode
    | ok model => exact .snapshot hm hread hdecode

theorem loadModel_of_model {path : String} (hm : a.model = some path) (root : Path) (s : Settings) :
    loadModel t a root s = Snapshot.load t ⟨path⟩ := by
  unfold loadModel
  rw [hm]

theorem loadModel_of_no_model (hm : a.model = none) :
    loadModel t a (rootOf t a) (Settings.load t (rootOf t a)) = (projectOf t a).load t := by
  unfold loadModel
  rw [hm]
  rfl

/-- There is one way in which the loading ends, and the command takes it. -/
theorem loads_iff :
    Loads t a r ↔ r = loadModel t a (rootOf t a) (Settings.load t (rootOf t a)) := by
  constructor
  · intro h
    cases h with
    | unreadable hm hread => rw [loadModel_of_model hm, Snapshot.load_of_unreadable hread]
    | undecodable hm hread hdecode =>
      rw [loadModel_of_model hm, Snapshot.load_of_text hread, hdecode]
      rfl
    | snapshot hm hread hdecode =>
      rw [loadModel_of_model hm, Snapshot.load_of_text hread, hdecode]
      rfl
    | noTarget hm hs =>
      rw [loadModel_of_no_model hm]
      exact (@Project.load_of_stat_error t (projectOf t a) _ hs).symm
    | noRoot hm hs hroot hc =>
      rw [isRoot_iff.mp hroot] at hc ⊢
      rw [loadModel_of_no_model hm]
      exact (@Project.load_of_canonicalize_error t (projectOf t a) _ _ hs hc).symm
    | noSources hm hstart =>
      obtain ⟨hs, hroot, hc, hsettings, hseeds⟩ := hstart
      rw [isRoot_iff.mp hroot] at hc hsettings
      rw [Settings.at_iff.mp hsettings] at hseeds
      rw [loadModel_of_no_model hm]
      exact (@Project.load_of_no_seeds t (projectOf t a) _ _ hs hc hseeds).symm
    | project hm hstart hne =>
      obtain ⟨hs, hroot, hc, hsettings, hseeds⟩ := hstart
      rw [isRoot_iff.mp hroot] at hc hsettings
      rw [Settings.at_iff.mp hsettings] at hseeds
      rw [← hseeds] at hne ⊢
      rw [loadModel_of_no_model hm]
      exact (@Project.load_of_seeds t (projectOf t a) _ _ hs hc hne).symm
  · intro h
    rw [h]
    cases hm : a.model with
    | some path =>
      rw [loadModel_of_model hm]
      exact loads_load_snapshot hm
    | none =>
      rw [loadModel_of_no_model hm]
      exact loads_load_project hm

end Check

end TokenAudit
