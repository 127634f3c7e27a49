import TokenAudit.Proofs.Files.Walk
import TokenAudit.Proofs.Project.Closure

/-! The sources of a project whose paths meet no link, read off a table of what each file holds. -/

namespace TokenAudit

open Solidity (Outline)

namespace Import

variable {t : FileTree} {rs : Remappings} {root importer q : Path} {spec : String}
variable {location : List String} {bytes : List UInt8}

theorem candidates_of_point (hspec : (spec.toList.head? == some '.') = true) :
    candidates rs root importer spec = (importer.parent?.map (·.child spec)).toList :=
  if_pos hspec

/-- A path that starts with a point leads to the file that it names from its importer on. -/
theorem resolve?_of_point (hspec : (spec.toList.head? == some '.') = true)
    (hq : importer.parent?.map (·.child spec) = some q) (hl : t.whereabouts? q = some location)
    (he : t.entry? location = some (.file bytes)) :
    resolve? t rs root importer spec = some (FileTree.pathOf location) := by
  have hfile : t.isFile q = true :=
    FileTree.isFile_iff.mpr ⟨bytes, FileTree.stat_of_whereabouts? hl he⟩
  simp [resolve?, candidates_of_point hspec, hq, hfile,
    FileTree.canonicalize_of_whereabouts? hl, Except.toOption]

end Import

deriving instance DecidableEq for Source

namespace Source

variable {outline : String → List Char → Outline} {t : FileTree} {rs : Remappings}
variable {root p : Path} {seeds : List Path} {table : List (Path × Source)}
variable {location : List String} {bytes : List UInt8}

theorem load?_of_whereabouts? {ds : List Declaration} (specs : List String) {targets : List Path}
    (hl : t.whereabouts? p = some location) (he : t.entry? location = some (.file bytes))
    (hds : (outline (root.display p) (Text.ofBytesLossy bytes)).contracts = ds)
    (hspecs : (outline (root.display p) (Text.ofBytesLossy bytes)).imports = specs)
    (htargets : specs.filterMap (Import.resolve? t rs root p) = targets) :
    load? outline t rs root p = some ⟨ds, targets⟩ := by
  have hread := FileTree.read_eq_ok_iff.mpr (FileTree.stat_of_whereabouts? hl he)
  simp [load?, hread, hds, hspecs, htargets]

/-- Where a table holds all files that are met, the search can look them up there. -/
theorem closure_eq_of_table
    (hload : ∀ a ∈ table, load? outline t rs root a.1 = some a.2)
    (himports : ∀ a ∈ table, ∀ q ∈ a.2.imports, q ∈ table.map (·.1))
    (hseeds : ∀ q ∈ seeds, q ∈ table.map (·.1)) :
    closure outline t rs root seeds =
      Graph.rounds (fun p => table.lookup p) Source.imports t.files seeds seeds := by
  have hlookup : ∀ q ∈ table.map (·.1), ∃ s, (q, s) ∈ table ∧ table.lookup q = some s := by
    intro q hq
    obtain ⟨⟨q', s⟩, hs, hq'⟩ := List.mem_map.mp hq
    obtain rfl : q' = q := hq'
    cases hfound : table.lookup q' with
    | none => simpa using List.lookup_eq_none_iff.mp hfound _ hs
    | some s' => exact ⟨s', mem_of_lookup hfound, rfl⟩
  refine Graph.rounds_congr (P := (· ∈ table.map (·.1))) (fun q hq => ?_) (fun q s hq hs r hr => ?_)
    hseeds
  · obtain ⟨s, hs, hfound⟩ := hlookup q hq
    rw [hload _ hs, hfound]
  · obtain ⟨s', hs', -⟩ := hlookup q hq
    obtain rfl : s' = s := Option.some.inj ((hload _ hs').symm.trans hs)
    exact himports _ hs' r hr

end Source

namespace Project

variable {t : FileTree} {p : Project} {location rootLocation : List String} {bytes : List UInt8}

/-- A project of one source starts in that source. -/
theorem locate_of_source (hl : t.whereabouts? p.target = some location)
    (he : t.entry? location = some (.file bytes)) (hsource : p.target.isSolidity = true)
    (hnonempty : p.root.text.isEmpty = false)
    (hroot : t.whereabouts? p.root = some rootLocation) :
    p.locate t = .ok (FileTree.pathOf rootLocation, [FileTree.pathOf location]) := by
  have hstat := FileTree.stat_of_whereabouts? hl he
  have hfind : Sources.find t p.target p.ignorePatterns = [p.target] := by
    rw [Sources.find, Sources.findBy, hstat]
    exact if_pos hsource
  have hseeds : (Sources.find t p.target p.ignorePatterns).filterMap
      (fun f => (t.canonicalize f).toOption) = [FileTree.pathOf location] := by
    simp [hfind, FileTree.canonicalize_of_whereabouts? hl, Except.toOption]
  simp only [locate, hstat, hnonempty, hseeds, Bool.false_eq_true, if_false,
    FileTree.canonicalize_of_whereabouts? hroot]
  rfl

end Project

end TokenAudit
