import TokenAudit.Hierarchy.Basic
import TokenAudit.Hierarchy.Merge

/-!
Linearization of inheritance: all bases of a declaration in one order, most derived first, in
which the bases written last come first.
-/

namespace TokenAudit

namespace Hierarchy

/-- The linearizations found so far, and the declarations whose linearization is under way. -/
structure Progress where
  found : List (Nat × List String) := []
  underway : List Nat := []

/-- The names above declaration `d`. A declaration under way is cut off, which breaks cycles.
`depth` bounds how many declarations can be under way. -/
def ancestors (h : Hierarchy) (depth : Nat) (d : Nat) (p : Progress) : Progress × List String :=
  match depth with
  | 0 => (p, [])
  | depth + 1 =>
    match p.found.lookup d with
    | some names => (p, names)
    | none =>
      if d ∈ p.underway then (p, [])
      else
        let bases := (h.basesOf d).reverse
        let start : Progress × List (List String) := ({ p with underway := d :: p.underway }, [])
        let (p, rows) := bases.foldl
          (fun (p, rows) base =>
            let (p, above) := match h.resolve? d base with
              | some b => ancestors h depth b p
              | none => (p, [])
            (p, rows ++ [base :: above]))
          start
        let names := Merge.mergeOrFlatten (rows ++ [bases])
        ({ found := (d, names) :: p.found, underway := p.underway.erase d }, names)

/-- Linearizes the declarations in order; what is found for one serves those after it. -/
def lineages (h : Hierarchy) : List (List String) :=
  ((List.range h.size).foldl
    (fun (found, names) d =>
      let (p, above) := h.ancestors (h.size + 1) d { found }
      (p.found, names ++ [above]))
    (([] : List (Nat × List String)), ([] : List (List String)))).2

/-- One contract per declaration, in the same order. -/
def linearize (h : Hierarchy) : List Contract :=
  List.zipWith Declaration.toContract h.declarations h.lineages

end Hierarchy

end TokenAudit
