import TokenAudit.Contract.Basic
import TokenAudit.Rule.Issue
import TokenAudit.Text.Lowercase
import TokenAudit.Text.Search

/-! Contracts with upgradeable ownership have an initializer that sets the owner. -/

namespace TokenAudit.OwnerSetup

def upgradeableBase : String := "OwnableUpgradeable"

def isUpgradeable (c : Contract) : Bool := c.inheritance.any (Text.mentions · upgradeableBase)

def isInitializerName (name : String) : Bool :=
  let name := Text.lower name
  "initialize".toList.isPrefixOf name.toList ||
    (Text.mentions name "ownable" && Text.mentions name "init")

def hasInitializer (c : Contract) : Bool :=
  c.functions.any fun m =>
    isInitializerName m.name || Text.mentions (Text.lower m.text) "__ownable_init"

def check (contracts : List Contract) : List Issue :=
  (contracts.filter fun c => isUpgradeable c && !hasInitializer c).map (.noInitializer ·.name)

end TokenAudit.OwnerSetup
