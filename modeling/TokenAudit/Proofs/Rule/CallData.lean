import TokenAudit.Proofs.Contract.CallData
import TokenAudit.Proofs.Rule.Audit
import TokenAudit.Proofs.Rule.TransferApproval

/-! More call data takes warnings about transfers away and brings none. -/

namespace TokenAudit

namespace TransferApproval

variable {contracts contracts' : List Contract} {c c' : Contract} {m m' : Member} {i : Nat}
variable {issue : Issue}

theorem isToken_eq_of_informed (hc : c.Informed c') : isToken c' = isToken c := by
  rw [isToken, isToken, hc.name_eq]

theorem transfers_informed (hc : c.Informed c') :
    List.Forall₂ Member.Informed (transfers c) (transfers c') := by
  have hfunctions : List.Forall₂ Member.Informed c.functions c'.functions := by
    refine List.rel_filter (fun m m' hm => ?_) hc.members
    simp only [Member.isModifier, hm.kind_eq]
  refine List.rel_filter (fun m m' hm => ?_) hfunctions
  simp only [hm.name_eq]

variable (h : List.Forall₂ Contract.Informed contracts contracts')

include h

/-- What leads to the check by its calls or its text does so when more calls are known. -/
theorem isApproved_of_informed (hm : m.Informed m')
    (ha : isApproved (.ofContracts contracts) i m = true) :
    isApproved (.ofContracts contracts') i m' = true := by
  unfold isApproved at ha ⊢
  rw [Bool.or_eq_true, List.any_eq_true] at ha ⊢
  rw [hm.name_eq, hm.text_eq]
  rcases ha with ⟨name, hname, happroval⟩ | htext
  · exact Or.inl ⟨name, CallGraph.mem_closure?_of_informed h hname, happroval⟩
  · exact Or.inr htext

theorem issue?_of_informed (hc : c.Informed c')
    (hissue : issue? (.ofContracts contracts') c' i = some issue) :
    issue? (.ofContracts contracts) c i = some issue := by
  have htransfers := transfers_informed hc
  have hempty : (transfers c').isEmpty = (transfers c).isEmpty := by
    rw [Bool.eq_iff_iff, List.isEmpty_iff_length_eq_zero, List.isEmpty_iff_length_eq_zero,
      htransfers.length_eq]
  have hany : (transfers c).any (isApproved (.ofContracts contracts) i) = true →
      (transfers c').any (isApproved (.ofContracts contracts') i) = true := by
    intro hone
    obtain ⟨m, hm, ha⟩ := List.any_eq_true.mp hone
    obtain ⟨m', hm', hinformed⟩ := exists_of_forall₂ htransfers hm
    exact List.any_eq_true.mpr ⟨m', hm', isApproved_of_informed h hinformed ha⟩
  unfold issue? at hissue ⊢
  rw [hempty, hc.name_eq] at hissue
  by_cases hnone : (transfers c).isEmpty = true
  · rwa [if_pos hnone] at hissue ⊢
  rw [if_neg hnone] at hissue ⊢
  by_cases hone : (transfers c).any (isApproved (.ofContracts contracts) i) = true
  · rw [if_pos (hany hone)] at hissue
    cases hissue
  · rw [if_neg hone]
    split_ifs at hissue
    exact hissue

theorem verdict?_of_informed (hc : c.Informed c')
    (hverdict : verdict? contracts' (c', i) = some issue) :
    verdict? contracts (c, i) = some issue := by
  unfold verdict? at hverdict ⊢
  simp only [isToken_eq_of_informed hc] at hverdict ⊢
  split_ifs at hverdict ⊢
  exact issue?_of_informed h hc hverdict

theorem any_isToken_of_informed : contracts'.any isToken = contracts.any isToken := by
  induction h with
  | nil => rfl
  | cons hc _ ih => rw [List.any_cons, List.any_cons, isToken_eq_of_informed hc, ih]

theorem check_sublist_of_informed : (check contracts').Sublist (check contracts) := by
  rw [check_eq, check_eq, any_isToken_of_informed h]
  split_ifs
  · refine filterMap_sublist_of_forall₂ (forall₂_zipIdx h 0) ?_
    intro ⟨c, i⟩ ⟨c', i'⟩ issue hci hverdict
    obtain ⟨hc, rfl⟩ : c.Informed c' ∧ i = i' := hci
    exact verdict?_of_informed h hc hverdict
  · exact List.Sublist.refl _

end TransferApproval

namespace Audit

/-- Contracts of which more is known of modifiers and calls, and nothing else differs, give a
subsequence of the warnings about transfers, whatever files, settings and report there are. -/
theorem warnings_of_informed {contracts contracts' : List Contract}
    (h : List.Forall₂ Contract.Informed contracts contracts') (t t' : FileTree)
    (root root' : Path) (s s' : Settings) :
    ((warningsOf (run t' root' s' contracts').findings).filter
      (·.rule = .transferApproval)).Sublist
        ((warningsOf (run t root s contracts).findings).filter (·.rule = .transferApproval)) := by
  rw [warningsOf_findings_filter, warningsOf_findings_filter]
  exact ((TransferApproval.check_sublist_of_informed h).map _).filter _

/-- Of the first token nothing is known, of the second that a transfer moves and does no more. -/
def vague : List Contract :=
  [{ name := "Token", kind := .contract, file := "Token.sol",
     members := [{ name := "transfer", kind := .function, visibility := .public,
                   modifiers := none, calls := none }] },
    { name := "TREXToken", kind := .contract, file := "TREXToken.sol",
      members := [{ name := "transfer", kind := .function, visibility := .public,
                    modifiers := none, calls := some ["move"] }] }]

/-- The modifiers and calls that `vague` leaves open, and one call more. -/
def detailed : List Contract :=
  [{ name := "Token", kind := .contract, file := "Token.sol",
     members := [{ name := "transfer", kind := .function, visibility := .public,
                   modifiers := some ["canTransfer"], calls := some [] }] },
    { name := "TREXToken", kind := .contract, file := "TREXToken.sol",
      members := [{ name := "transfer", kind := .function, visibility := .public,
                    modifiers := some [], calls := some ["log", "move"] }] }]

theorem warnings_of_informed_detailed :
    List.Forall₂ Contract.Informed vague detailed ∧
      TransferApproval.check vague =
        [.unapprovedTransfers "Token", .unapprovedTransfers "TREXToken"] ∧
      TransferApproval.check detailed = [.unapprovedTransfers "TREXToken"] ∧
      ((warningsOf (run ⟨.directory [], []⟩ ⟨"/"⟩ {} detailed).findings).filter
        (·.rule = .transferApproval)).Sublist
          ((warningsOf (run ⟨.directory [], []⟩ ⟨"/"⟩ {} vague).findings).filter
            (·.rule = .transferApproval)) := by
  have hfirst : (vague[0]).Informed detailed[0] :=
    ⟨rfl, .cons ⟨rfl, nofun, nofun⟩ .nil⟩
  have hcalls : StillKnown (some ["move"]) (some ["log", "move"]) := by
    intro names hnames
    rw [← Option.some.inj hnames]
    exact ⟨_, rfl, by simp⟩
  have hsecond : (vague[1]).Informed detailed[1] :=
    ⟨rfl, .cons ⟨rfl, nofun, hcalls⟩ .nil⟩
  have hinformed : List.Forall₂ Contract.Informed vague detailed :=
    .cons hfirst (.cons hsecond .nil)
  have hvague : TransferApproval.check vague =
      [.unapprovedTransfers "Token", .unapprovedTransfers "TREXToken"] := by decide +kernel
  have hdetailed : TransferApproval.check detailed = [.unapprovedTransfers "TREXToken"] := by
    decide +kernel
  exact ⟨hinformed, hvague, hdetailed, warnings_of_informed hinformed _ _ _ _ _ _⟩

end Audit

end TokenAudit
