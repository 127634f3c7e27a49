import TokenAudit.Contract.CallGraph
import TokenAudit.Rule.Issue
import TokenAudit.Text.Lowercase
import TokenAudit.Text.Search

/-! The transfer functions of a token lead to the check whether a transfer is allowed. -/

namespace TokenAudit.TransferApproval

def tokenNames : List String := ["token", "trextoken", "erc3643token"]

def transferNames : List String := ["transfer", "transferFrom", "_update", "_transfer"]

def isToken (c : Contract) : Bool := tokenNames.contains (Text.lower c.name)

def transfers (c : Contract) : List Member :=
  c.functions.filter fun m => transferNames.contains m.name

def isApproval (name : String) : Bool := Text.mentions (Text.lower name) "cantransfer"

/-- Member `m` of the contract at position `i` leads to the check, by its calls or by its text. -/
def isApproved (g : CallGraph) (i : Nat) (m : Member) : Bool :=
  ((g.closure? i m.name).getD []).any isApproval || Text.mentions m.text "canTransfer("

/-- What is wrong with the token at position `i`. -/
def issue? (g : CallGraph) (c : Contract) (i : Nat) : Option Issue :=
  if (transfers c).isEmpty then some (.noTransfers c.name)
  else if (transfers c).any (isApproved g i) then none
  else some (.unapprovedTransfers c.name)

def check (contracts : List Contract) : List Issue :=
  let g := CallGraph.ofContracts contracts
  let tokens := contracts.zipIdx.filter fun (c, _) => isToken c
  if tokens.isEmpty then [.noToken] else tokens.filterMap fun (c, i) => issue? g c i

end TokenAudit.TransferApproval
