import TokenAudit.Proofs.Rule.OriginUse
import TokenAudit.Proofs.Text.Lines
import TokenAudit.Report.Markdown

/-! The finding of files that use the origin of a transaction, as Markdown: an item for each file. -/

namespace TokenAudit.Markdown

open Text

variable {files : List String} {cs : List Char}

/-- The mark that stands in front of an item in a message. -/
def mark : List Char := ['-', ' ']

theorem dropMarks_of_not_prefix (h : ¬ mark <+: cs) : dropMarks cs = cs := by
  rw [dropMarks]
  rintro r rfl
  exact h ⟨r, rfl⟩

/-- The mark of a message is taken off, and what is behind it stays as it is. -/
theorem item_marked (h : ¬ mark <+: cs) :
    item (' ' :: ' ' :: mark ++ cs) = "  - `" ++ String.ofList cs ++ "`\n" := by
  have htrim : trimStart (' ' :: ' ' :: mark ++ cs) = mark ++ cs := by
    simp [trimStart, mark, isBlank]
  have hmark : dropMarks (mark ++ cs) = dropMarks cs := by
    simp [mark, dropMarks]
  rw [item, htrim, hmark, dropMarks_of_not_prefix h]

/-- The finding of the files in lines. -/
def originUseLines (files : List String) : List String :=
  "- **FAIL** C3: tx.origin usage found in:" :: files.map fun f => "  - `" ++ f ++ "`"

/-- The message about the files in lines. -/
def messageLines (files : List String) : List (List Char) :=
  "C3: tx.origin usage found in:".toList :: files.map fun f => ' ' :: ' ' :: mark ++ f.toList

theorem isLine_headline : IsLine "C3: tx.origin usage found in:".toList :=
  ⟨by decide, by decide⟩

theorem isLine_marked (h : IsLine cs) : IsLine (' ' :: ' ' :: mark ++ cs) :=
  IsLine.append (l := [' ', ' ', '-', ' ']) ⟨by decide, by decide⟩ h

theorem lines_message (h : ∀ f ∈ files, IsLine f.toList) :
    lines (Issue.originUse files).finding.message.toList = messageLines files := by
  have hstart : "C3" ++ ": " ++ "tx.origin usage found in:" =
      "C3: tx.origin usage found in:" := by decide
  have hitems : (String.join (files.map (Issue.fileMark ++ ·))).toList =
      (files.map fun f => ' ' :: ' ' :: mark ++ f.toList).flatMap ('\n' :: ·) := by
    rw [String.toList_join, List.flatMap_map, List.flatMap_map]
    refine List.flatMap_congr fun f _ => ?_
    rw [String.toList_append]
    rfl
  have htext : (Issue.originUse files).finding.message = "C3" ++ ": " ++
      ("tx.origin usage found in:" ++ String.join (files.map (Issue.fileMark ++ ·))) := rfl
  rw [htext, ← String.append_assoc, hstart, String.toList_append, hitems]
  refine lines_separated (List.forall_mem_cons.mpr ⟨⟨isLine_headline, by decide⟩, ?_⟩)
  exact List.forall_mem_map.mpr fun f hf => ⟨isLine_marked (h f hf), List.cons_ne_nil _ _⟩

theorem finding_originUse (h : ∀ f ∈ files, IsLine f.toList)
    (hmark : ∀ f ∈ files, ¬ mark <+: f.toList) :
    finding (Issue.originUse files).finding =
      String.join ((originUseLines files).map (· ++ "\n")) := by
  have hitems : (messageLines files).tail.map item =
      (files.map fun f => "  - `" ++ f ++ "`").map (· ++ "\n") := by
    rw [messageLines, List.tail_cons, List.map_map, List.map_map]
    refine List.map_congr_left fun f hf => ?_
    have hend : "`\n" = "`" ++ "\n" := by decide
    rw [Function.comp_apply, Function.comp_apply, item_marked (hmark f hf), String.ofList_toList,
      hend, ← String.append_assoc]
  have hheadline : "- **" ++ "FAIL" ++ "** " ++ String.ofList ((messageLines files).headD []) ++
      "\n" = "- **FAIL** C3: tx.origin usage found in:" ++ "\n" := by
    have hstart : "- **" ++ "FAIL" ++ "** " = "- **FAIL** " := by decide
    have hline : "- **FAIL** " ++ "C3: tx.origin usage found in:" =
        "- **FAIL** C3: tx.origin usage found in:" := by decide
    rw [messageLines, List.headD_cons, String.ofList_toList, hstart, hline]
  have hfinding : finding (Issue.originUse files).finding =
      "- **" ++ "FAIL" ++ "** " ++ String.ofList ((messageLines files).headD []) ++ "\n" ++
        String.join ((messageLines files).tail.map item) := by
    rw [← lines_message h]
    rfl
  rw [hfinding, hheadline, hitems, originUseLines, List.map_cons, String.join_cons]

theorem isLine_originUseLines (h : ∀ f ∈ files, IsLine f.toList) :
    ∀ l ∈ (originUseLines files).map String.toList, IsLine l := by
  rw [originUseLines, List.map_cons, List.map_map]
  refine List.forall_mem_cons.mpr ⟨⟨by decide, by decide⟩, ?_⟩
  refine List.forall_mem_map.mpr fun f hf => ?_
  have hitem : ("  - `" ++ f ++ "`").toList = "  - `".toList ++ f.toList ++ ['`'] := by simp
  rw [Function.comp_apply, hitem]
  exact (IsLine.append ⟨by decide, by decide⟩ (h f hf)).append ⟨by decide, by decide⟩

/-- The files that the check reports are shown as one headline and an item for each file in their
order, if their names fit on lines and do not begin with the mark of an item. -/
theorem lines_finding_originUse (h : ∀ f ∈ files, '\n' ∉ f.toList ∧ '\r' ∉ f.toList)
    (hmark : ∀ f ∈ files, ¬ mark <+: f.toList) (hne : files ≠ []) :
    lines (finding (Issue.originUse files).finding).toList =
        (originUseLines files).map String.toList ∧
      (Issue.originUse files).finding.severity = .fail ∧
      ∀ (t : FileTree) (root : Path) (dirs : List String), OriginUse.scan t root dirs = files →
        (OriginUse.check t root dirs).map (fun i => finding i.finding) =
          [String.join ((originUseLines files).map (· ++ "\n"))] := by
  have hline : ∀ f ∈ files, IsLine f.toList := fun f hf => ⟨(h f hf).1, (h f hf).2⟩
  have htext := finding_originUse hline hmark
  refine ⟨?_, rfl, fun t root dirs hscan => ?_⟩
  · rw [← lines_ended (isLine_originUseLines hline), htext, String.toList_join, List.flatMap_map,
      List.flatMap_map]
    refine congrArg lines (List.flatMap_congr fun l _ => ?_)
    rw [String.toList_append]
    rfl
  · have hcheck : OriginUse.check t root dirs = [.originUse files] := by
      unfold OriginUse.check
      rw [hscan]
      split
      · exact absurd rfl hne
      · rfl
    rw [hcheck, List.map_singleton, htext]

/-- Names that begin with blanks or are a mark without its blank. -/
def oddNames : List String := ["contracts/A.sol", " - b.sol", "\u2003", "-"]

theorem lines_finding_originUse_oddNames :
    (∀ f ∈ oddNames, '\n' ∉ f.toList ∧ '\r' ∉ f.toList) ∧
      (∀ f ∈ oddNames, ¬ mark <+: f.toList) ∧ oddNames ≠ [] ∧
        lines (finding (Issue.originUse oddNames).finding).toList =
          ["- **FAIL** C3: tx.origin usage found in:", "  - `contracts/A.sol`", "  - ` - b.sol`",
            "  - `\u2003`", "  - `-`"].map String.toList := by
  have hline : ∀ f ∈ oddNames, '\n' ∉ f.toList ∧ '\r' ∉ f.toList := by decide
  have hmark : ∀ f ∈ oddNames, ¬ mark <+: f.toList := by decide
  have hne : oddNames ≠ [] := by decide
  exact ⟨hline, hmark, hne, (lines_finding_originUse hline hmark hne).1.trans (by decide)⟩

end TokenAudit.Markdown
