import TokenAudit.Proofs.Contract.Encoding
import TokenAudit.Proofs.Files.Write
import TokenAudit.Rule.Audit

/-! A snapshot is kept whole: what is loaded from its file is what has been saved there. -/

namespace TokenAudit

namespace Snapshot

variable {s s' : Snapshot} {t t' : FileTree} {path : Path}

theorem print_injective (h : s'.print = s.print) : s' = s := by
  have hs : read s.print.toList = .ok s := read_print s
  rw [← h, read_print s'] at hs
  exact Except.ok.inj hs

theorem save_eq_ok :
    s.save t path = .ok t' ↔ t.write path (Text.toBytes s.print.toList) = .ok t' :=
  mapError_eq_ok

theorem load_save (h : s.save t path = .ok t') : load t' path = .ok s := by
  have htext : t'.readText path = .ok s.print.toList :=
    FileTree.readText_of_write (save_eq_ok.mp h)
  exact bind_eq_ok.mpr
    ⟨s.print.toList, mapError_eq_ok.mpr htext, mapError_eq_ok.mpr (read_print s)⟩

theorem save_save (h : s.save t path = .ok t') : s.save t' path = .ok t' :=
  save_eq_ok.mpr (FileTree.write_of_write (save_eq_ok.mp h))

/-- A snapshot that has been saved is loaded as it was: it is audited like the first, and saving it
changes nothing. Since no other snapshot has its text, what is unknown in it is not taken for
empty. -/
theorem restored_of_save (h : s.save t path = .ok t') :
    ∃ restored, load t' path = .ok restored ∧ restored.version = s.version ∧
      restored.engine = s.engine ∧ restored.contracts = s.contracts ∧
      restored.print = s.print ∧ restored.save t' path = .ok t' ∧
      (∀ other : Snapshot, other.print = s.print → other = s) ∧
      ∀ (files : FileTree) (root : Path) (settings : Settings),
        Audit.run files root settings restored.contracts =
          Audit.run files root settings s.contracts := by
  have hload : load t' path = .ok s := load_save h
  have hagain : s.save t' path = .ok t' := save_save h
  refine ⟨s, hload, rfl, rfl, rfl, rfl, hagain, ?_, ?_⟩
  · exact fun other hprint => print_injective hprint
  · exact fun files root settings => rfl

/-- Of the first member nothing more is known; the second is known to have no modifiers. -/
def guarded : Snapshot where
  engine := "\"\\\x01é"
  contracts :=
    [{ name := "A", kind := .contract, file := "A.sol"
       members :=
         [{ name := "f", kind := .function, visibility := .public, modifiers := none
            calls := none },
          { name := "g", kind := .function, visibility := .public, modifiers := some []
            source := some ⟨"A.sol", 7, 4294967295, "function g()\n"⟩ }] }]

/-- What is saved in a new file is loaded with all that is unknown. -/
theorem restored_of_save_guarded :
    ∃ t', guarded.save { root := .directory [] } ⟨"/model.json"⟩ = .ok t' ∧
      ∃ restored, load t' ⟨"/model.json"⟩ = .ok restored ∧ restored.engine = guarded.engine ∧
        restored.contracts.map (·.members.map (·.modifiers)) = [[none, some []]] := by
  let t : FileTree := { root := .directory [] }
  have hplain : FileTree.Plain "model.json" := ⟨by decide, by decide, by decide⟩
  have hl : t.locate ⟨"/model.json"⟩ = .ok ⟨["model.json"], false⟩ := by
    refine FileTree.locate_eq_ok_iff.mpr ⟨⟨by decide, by decide, by decide⟩, ?_⟩
    have hparts : (Path.parts "/model.json".toList).map String.ofList = ["", "model.json"] := by
      decide
    rw [hparts, FileTree.follow_skip (Or.inl rfl)]
    exact FileTree.follow_none_last hplain rfl
  have hd : ¬ t.DirectoryAt ["model.json"] := nofun
  have hsave : guarded.save t ⟨"/model.json"⟩ =
      .ok (t.withFile ["model.json"] (Text.toBytes guarded.print.toList)) :=
    save_eq_ok.mpr (FileTree.write_of_locate (by decide) hl hd)
  obtain ⟨restored, hload, -, hengine, hcontracts, -⟩ := restored_of_save hsave
  exact ⟨_, hsave, restored, hload, hengine, by rw [hcontracts]; rfl⟩

end Snapshot

end TokenAudit
