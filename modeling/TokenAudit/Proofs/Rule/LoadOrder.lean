import TokenAudit.Proofs.Contract.LoadOrder
import TokenAudit.Proofs.Rule.Audit
import TokenAudit.Proofs.Rule.TransferApproval

/-! What a run reports does not depend on the order of the contracts, if no two of them have one
name. -/

namespace TokenAudit

variable {contracts contracts' : List Contract} {c : Contract} {i j : Nat}

namespace Reordered

variable (hr : Reordered contracts contracts')

include hr

theorem isApproved_eq (h : SameAt contracts contracts' i j) (m : Member) :
    TransferApproval.isApproved (.ofContracts contracts') j m =
      TransferApproval.isApproved (.ofContracts contracts) i m := by
  have hany : (((CallGraph.ofContracts contracts').closure? j m.name).getD []).any
        TransferApproval.isApproval =
      (((CallGraph.ofContracts contracts).closure? i m.name).getD []).any
        TransferApproval.isApproval := by
    rw [Bool.eq_iff_iff]
    simp only [List.any_eq_true, hr.mem_closure?_iff h]
  rw [TransferApproval.isApproved, TransferApproval.isApproved, hany]

theorem verdict?_eq (h : SameAt contracts contracts' i j) (c : Contract) :
    TransferApproval.verdict? contracts' (c, j) = TransferApproval.verdict? contracts (c, i) := by
  have happroved : TransferApproval.isApproved (.ofContracts contracts') j =
      TransferApproval.isApproved (.ofContracts contracts) i := funext (hr.isApproved_eq h)
  simp only [TransferApproval.verdict?, TransferApproval.issue?, happroved]

theorem transferApproval_perm :
    (TransferApproval.check contracts').Perm (TransferApproval.check contracts) := by
  have htoken : contracts'.any TransferApproval.isToken = contracts.any TransferApproval.isToken :=
    hr.perm.any_eq
  rw [TransferApproval.check_eq, TransferApproval.check_eq, htoken]
  split_ifs
  · exact filterMap_zipIdx_perm hr.perm hr.nodup fun c i j hi hj =>
      hr.verdict?_eq ⟨c, hi, hj⟩ c
  · exact .refl _

theorem adminAccess_perm (tables : AdminTables) :
    (AdminAccess.check tables contracts').Perm (AdminAccess.check tables contracts) :=
  hr.perm.flatMap_right _

theorem ownerSetup_perm : (OwnerSetup.check contracts').Perm (OwnerSetup.check contracts) :=
  (hr.perm.filter _).map _

theorem issues_perm (t : FileTree) (root : Path) (s : Settings) :
    (Audit.issues t root s contracts').Perm (Audit.issues t root s contracts) :=
  (((hr.adminAccess_perm _).append hr.transferApproval_perm).append (.refl _)).append
    hr.ownerSetup_perm

theorem sortedNames_eq : sortedNames contracts' = sortedNames contracts := by
  refine mergeSort_eq_of_perm (fun a b c hab hbc => ?_) (fun a b => ?_) (fun a _ b _ hab hba => ?_)
    (hr.perm.map _)
  · simp only [decide_eq_true_eq] at hab hbc ⊢
    exact String.le_trans hab hbc
  · simpa using String.le_total a b
  · simp only [decide_eq_true_eq] at hab hba
    exact String.le_antisymm hab hba

end Reordered

namespace Audit

/-- With distinct names a run on the contracts in another order shows and reports the same
findings, though warnings and notes may come in another order. All else in the report is the
same. -/
theorem run_in_any_order (t : FileTree) (root : Path) (s : Settings)
    (hd : (contracts.map (·.name)).Nodup) (hp : contracts'.Perm contracts) :
    (run t root s contracts').findings.Perm (run t root s contracts).findings ∧
      (run t root s contracts').report.failures = (run t root s contracts).report.failures ∧
      (run t root s contracts').report.contracts = (run t root s contracts).report.contracts ∧
      (run t root s contracts').report.passed = (run t root s contracts).report.passed ∧
      (run t root s contracts').report.exitCode = (run t root s contracts).report.exitCode ∧
      (run t root s contracts').report.warnings.Perm (run t root s contracts).report.warnings ∧
      (run t root s contracts').report.notes.Perm (run t root s contracts).report.notes := by
  have hr : Reordered contracts contracts' := ⟨hp, hd⟩
  have hshown : (ledger t root s contracts').shown.Perm (ledger t root s contracts).shown := by
    rw [shown_ledger, shown_ledger]
    exact (hr.issues_perm t root s).map _
  have hfailures : (run t root s contracts').report.failures =
      (run t root s contracts).report.failures := by
    have hb : ∀ cs, (run t root s cs).report.failures = _ := fun cs =>
      failures_reportOn (balanced_ledger)
    rw [hb, hb, shown_ledger, shown_ledger, failuresOf_issues, failuresOf_issues]
  have hpassed : (run t root s contracts').report.passed =
      (run t root s contracts).report.passed := congrArg List.isEmpty hfailures
  refine ⟨hshown, hfailures, hr.sortedNames_eq, hpassed, ?_, ?_, ?_⟩
  · rw [Report.exitCode, Report.exitCode, hpassed]
  · have hw : ∀ cs, (run t root s cs).report.warnings = _ := fun cs =>
      warnings_reportOn balanced_ledger
    rw [hw, hw]
    exact hshown.filter _
  · have hn : ∀ cs, (run t root s cs).report.notes = _ := fun cs => notes_reportOn balanced_ledger
    rw [hn, hn]
    exact (hshown.filter _).map _

/-- The call of `settle` leads to both other contracts, in the order in which they are loaded. -/
def settled : List Contract :=
  [{ name := "Token", kind := .contract, file := "Token.sol",
     members := [{ name := "transfer", kind := .function, visibility := .public,
                   calls := some ["settle"] }] },
    { name := "Ledger", kind := .contract, file := "Ledger.sol",
      members := [{ name := "settle", kind := .function, visibility := .external,
                    calls := some ["post"] }] },
    { name := "Escrow", kind := .contract, file := "Escrow.sol",
      members := [{ name := "settle", kind := .function, visibility := .external,
                    calls := some ["release"] }] }]

/-- Closures have their names in another order, and the verdict on the token is the same. -/
theorem run_in_any_order_settled :
    (settled.map (·.name)).Nodup ∧ settled.reverse.Perm settled ∧
      (CallGraph.ofContracts settled).closure? 0 "transfer" =
        some ["settle", "post", "release"] ∧
      (CallGraph.ofContracts settled.reverse).closure? 2 "transfer" =
        some ["settle", "release", "post"] ∧
      TransferApproval.check settled = [.unapprovedTransfers "Token"] ∧
      (run ⟨.directory [], []⟩ ⟨"/"⟩ {} settled.reverse).report.exitCode =
        (run ⟨.directory [], []⟩ ⟨"/"⟩ {} settled).report.exitCode ∧
      (run ⟨.directory [], []⟩ ⟨"/"⟩ {} settled.reverse).report.warnings.Perm
        (run ⟨.directory [], []⟩ ⟨"/"⟩ {} settled).report.warnings := by
  have hd : (settled.map (·.name)).Nodup := by decide
  have hp : settled.reverse.Perm settled := List.reverse_perm settled
  obtain ⟨-, -, -, -, hexit, hwarnings, -⟩ :=
    run_in_any_order ⟨.directory [], []⟩ ⟨"/"⟩ {} hd hp
  exact ⟨hd, hp, by decide +kernel, by decide +kernel, by decide +kernel, hexit, hwarnings⟩

end Audit

end TokenAudit
