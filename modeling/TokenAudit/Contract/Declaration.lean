import TokenAudit.Contract.Basic

/-! Contract declarations as they stand in a file, before their bases are linearized. -/

namespace TokenAudit

structure Declaration where
  name : String
  kind : ContractKind
  file : String
  lineStart : UInt32
  /-- The direct bases as written. -/
  bases : List String
  members : List Member
  deriving DecidableEq

/-- The contract that a declaration gives once its bases are linearized. -/
def Declaration.toContract (d : Declaration) (inheritance : List String) : Contract :=
  { name := d.name, kind := d.kind, file := d.file, inheritance, members := d.members }

end TokenAudit
