import TokenAudit.Project.Settings
import TokenAudit.Proofs.Files.Tree
import TokenAudit.Proofs.Json.Decode
import TokenAudit.Proofs.Json.RoundTrip

/-! The settings of a project are those in its settings file. What the file leaves out is standard,
and so is everything if there is no file that can be used. -/

namespace TokenAudit.Settings

open Json

variable {t : FileTree} {root : Path} {s s' : Settings} {dirs : List String} {origin : JsonOrigin}

/-- The settings at the root of a project: what the file there is decoded to, or the standard ones
if there is no file that can be read and decoded. -/
inductive At (t : FileTree) (root : Path) : Settings → Prop
  | file {text s} (hread : t.readText (root.child "trexlint.json") = .ok text)
      (hdecode : decodeText (decode .text) text = .ok s) : At t root s
  | standard (hnone : ∀ text s, t.readText (root.child "trexlint.json") = .ok text →
      decodeText (decode .text) text ≠ .ok s) : At t root {}

theorem at_load (t : FileTree) (root : Path) : At t root (load t root) := by
  unfold load fileName
  cases hread : t.readText (root.child "trexlint.json") with
  | error e =>
    refine .standard fun text s htext => ?_
    rw [hread] at htext
    cases htext
  | ok text =>
    dsimp only
    cases hdecode : decodeText (decode .text) text with
    | ok s => exact .file hread hdecode
    | error e =>
      refine .standard fun text' s htext hs => ?_
      rw [← Except.ok.inj (hread.symm.trans htext), hdecode] at hs
      cases hs

theorem At.unique (h : At t root s) (h' : At t root s') : s = s' := by
  cases h with
  | file hread hdecode =>
    cases h' with
    | file hread' hdecode' =>
      rw [Except.ok.inj (hread.symm.trans hread'), hdecode'] at hdecode
      exact (Except.ok.inj hdecode).symm
    | standard hnone => exact absurd hdecode (hnone _ _ hread)
  | standard hnone =>
    cases h' with
    | file hread hdecode => exact absurd hdecode (hnone _ _ hread)
    | standard => rfl

theorem at_iff : At t root s ↔ s = load t root := by
  constructor
  · intro h
    exact h.unique (at_load t root)
  · intro h
    rw [h]
    exact at_load t root

/-- Settings that are nowhere are the standard ones. -/
theorem at_of_missing {location : List String}
    (hl : t.locate (root.child "trexlint.json") = .ok ⟨location, false⟩) : At t root {} := by
  refine .standard fun text s htext => ?_
  obtain ⟨_, hread, -⟩ := bind_eq_ok.mp htext
  obtain ⟨place, hplace, hpresent, -⟩ :=
    FileTree.stat_eq_ok_iff.mp (FileTree.read_eq_ok_iff.mp hread)
  rw [← Except.ok.inj (hl.symm.trans hplace)] at hpresent
  cases hpresent

/-- The text of a settings file that says where to scan and nothing else. -/
def scanText (dirs : List String) : List Char :=
  (ofFields [("scan_dirs", ofStrings dirs)]).print.toList

theorem decode_scanDirectories (dirs : List String) :
    decode origin (ofFields [("scan_dirs", ofStrings dirs)]) =
      .ok { scanDirectories := dirs } := by
  have hdirs : asList asString (ofStrings dirs) = .ok dirs := inverts_asStrings dirs
  have hrecord : asRecord origin "TrexConfig" (fields origin)
      (ofFields [("scan_dirs", ofStrings dirs)]) = .ok [("scan_dirs", ofStrings dirs)] := by
    refine asRecord_ofFields _ ?_ (by simp) ?_
    · rw [List.forall_mem_singleton]
      exact ⟨_, rfl, check_optional hdirs⟩
    · simp [fields, Field.optional]
  show (asRecord origin "TrexConfig" (fields origin)
    (ofFields [("scan_dirs", ofStrings dirs)]) >>= _) = _
  rw [hrecord]
  show (do
    let dirs ← asList asString (ofStrings dirs)
    pure { scanDirectories := dirs }) = Except.ok ({ scanDirectories := dirs } : Settings)
  rw [hdirs]
  rfl

/-- A file that says where to scan is obeyed, and all else is standard. -/
theorem at_of_scanText (hread : t.readText (root.child "trexlint.json") = .ok (scanText dirs)) :
    At t root { scanDirectories := dirs } := by
  have hplain : Plain (ofFields [("scan_dirs", ofStrings dirs)]) := by
    refine .object ?_
    rw [List.forall_mem_singleton]
    exact plain_ofStrings dirs
  refine .file hread ?_
  rw [scanText, decodeText, read_print hplain, decode_scanDirectories]
  rfl

end TokenAudit.Settings
