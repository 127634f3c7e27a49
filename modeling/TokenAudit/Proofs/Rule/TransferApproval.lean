import Mathlib.Data.List.Basic
import TokenAudit.Rule.TransferApproval

/-! The check of transfers, one verdict for each token. -/

namespace TokenAudit

namespace TransferApproval

/-- What the check reports on the contract at position `i`, if that is a token. -/
def verdict? (contracts : List Contract) : Contract × Nat → Option Issue
  | (c, i) => if isToken c then issue? (CallGraph.ofContracts contracts) c i else none

theorem isEmpty_tokens (contracts : List Contract) :
    (contracts.zipIdx.filter fun p => isToken p.1).isEmpty = !contracts.any isToken := by
  have hany : contracts.any isToken = contracts.zipIdx.any fun p => isToken p.1 := by
    rw [← List.zipIdx_map_fst 0 contracts, List.any_map, List.zipIdx_map_fst]
    rfl
  rw [hany, Bool.eq_iff_iff]
  simp

theorem check_eq (contracts : List Contract) :
    check contracts =
      if contracts.any isToken then contracts.zipIdx.filterMap (verdict? contracts)
      else [.noToken] := by
  have hcheck : check contracts =
      if (contracts.zipIdx.filter fun p => isToken p.1).isEmpty then [.noToken]
      else (contracts.zipIdx.filter fun p => isToken p.1).filterMap fun p =>
        issue? (CallGraph.ofContracts contracts) p.1 p.2 := rfl
  rw [hcheck, isEmpty_tokens, List.filterMap_filter]
  cases contracts.any isToken <;> rfl

end TransferApproval

end TokenAudit
