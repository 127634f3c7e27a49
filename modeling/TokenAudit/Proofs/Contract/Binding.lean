import Mathlib.Data.List.Sort
import TokenAudit.Contract.CallGraph
import TokenAudit.Proofs.Lists

/-! The contracts to which a called name is bound, as a relation. -/

namespace TokenAudit.CallGraph

variable {contracts : List Contract} {caller i : Nat} {callee a : String}

/-- The contract at position `i` has a member `name`. -/
def DeclaresAt (contracts : List Contract) (i : Nat) (name : String) : Prop :=
  ∃ c, contracts[i]? = some c ∧ c.Declares name

/-- The contract at position `i` is called `name`. -/
def NamedAt (contracts : List Contract) (i : Nat) (name : String) : Prop :=
  ∃ c, contracts[i]? = some c ∧ c.name = name

def inheritanceAt (contracts : List Contract) (i : Nat) : List String :=
  (contracts[i]?.map (·.inheritance)).getD []

/-- The nodes to which `callee` is bound in the contract `caller`: its own member, else that of the
first contract with the earliest possible inherited name, else those of all contracts in order,
else a node of no contract. -/
inductive Bound (contracts : List Contract) (caller : Nat) (callee : String) :
    List CallNode → Prop
  | own (hown : DeclaresAt contracts caller callee) :
      Bound contracts caller callee [⟨some caller, callee⟩]
  | inherited {before after a i} (hown : ¬ DeclaresAt contracts caller callee)
      (hlineage : inheritanceAt contracts caller = before ++ a :: after)
      (hbefore : ∀ b ∈ before, ∀ j, DeclaresAt contracts j callee → ¬ NamedAt contracts j b)
      (hi : DeclaresAt contracts i callee) (hname : NamedAt contracts i a)
      (hfirst : ∀ j < i, DeclaresAt contracts j callee → ¬ NamedAt contracts j a) :
      Bound contracts caller callee [⟨some i, callee⟩]
  | everywhere {known} (hown : ¬ DeclaresAt contracts caller callee)
      (hlineage : ∀ a ∈ inheritanceAt contracts caller, ∀ j,
        DeclaresAt contracts j callee → ¬ NamedAt contracts j a)
      (hsorted : known.Pairwise (· < ·)) (hmem : ∀ i, i ∈ known ↔ DeclaresAt contracts i callee)
      (hne : known ≠ []) :
      Bound contracts caller callee (known.map fun i => ⟨some i, callee⟩)
  | unresolved (hnone : ∀ i, ¬ DeclaresAt contracts i callee) :
      Bound contracts caller callee [⟨none, callee⟩]

theorem mem_declarers_iff : i ∈ declarers contracts callee ↔ DeclaresAt contracts i callee := by
  simp only [declarers, List.mem_filter, List.mem_range, Option.any_eq_true, decide_eq_true_eq,
    DeclaresAt]
  constructor
  · exact fun h => h.2
  · intro h
    obtain ⟨c, hc, hd⟩ := h
    exact ⟨(List.getElem?_eq_some_iff.mp hc).1, c, hc, hd⟩

theorem pairwise_declarers (contracts : List Contract) (callee : String) :
    (declarers contracts callee).Pairwise (· < ·) :=
  List.pairwise_lt_range.filter _

/-- The first contract called `a` that declares `callee`. -/
def heir? (contracts : List Contract) (callee a : String) : Option Nat :=
  (declarers contracts callee).find? fun i => contracts[i]?.any (·.name == a)

theorem any_name_eq_true_iff :
    contracts[i]?.any (·.name == a) = true ↔ NamedAt contracts i a := by
  simp [Option.any_eq_true, NamedAt]

theorem heir?_eq_none_iff :
    heir? contracts callee a = none ↔
      ∀ j, DeclaresAt contracts j callee → ¬ NamedAt contracts j a := by
  unfold heir?
  rw [List.find?_eq_none]
  simp only [mem_declarers_iff, any_name_eq_true_iff]

theorem heir?_eq_some_iff :
    heir? contracts callee a = some i ↔
      DeclaresAt contracts i callee ∧ NamedAt contracts i a ∧
        ∀ j < i, DeclaresAt contracts j callee → ¬ NamedAt contracts j a := by
  unfold heir?
  rw [find?_eq_some_iff_of_pairwise (pairwise_declarers contracts callee)]
  simp only [mem_declarers_iff, any_name_eq_true_iff, ← Bool.not_eq_true]

theorem bindings_of_declaresAt (hown : DeclaresAt contracts caller callee) :
    bindings contracts caller callee = [caller] :=
  if_pos (mem_declarers_iff.mpr hown)

theorem bindings_of_not_declaresAt (hown : ¬ DeclaresAt contracts caller callee) :
    bindings contracts caller callee =
      match (inheritanceAt contracts caller).findSome? (heir? contracts callee) with
      | some i => [i]
      | none => declarers contracts callee :=
  if_neg (mt mem_declarers_iff.mp hown)

theorem targets_eq_map (hne : bindings contracts caller callee ≠ []) :
    targets contracts caller callee =
      (bindings contracts caller callee).map fun i => ⟨some i, callee⟩ := by
  unfold targets
  split
  · next h => exact absurd h hne
  · rfl

theorem targets_of_inherited {before after : List String}
    (hown : ¬ DeclaresAt contracts caller callee)
    (hlineage : inheritanceAt contracts caller = before ++ a :: after)
    (hbefore : ∀ b ∈ before, heir? contracts callee b = none)
    (ha : heir? contracts callee a = some i) :
    targets contracts caller callee = [⟨some i, callee⟩] := by
  have hfind : (inheritanceAt contracts caller).findSome? (heir? contracts callee) = some i :=
    List.findSome?_eq_some_iff.mpr ⟨before, a, after, hlineage, ha, hbefore⟩
  have hb : bindings contracts caller callee = [i] := by
    rw [bindings_of_not_declaresAt hown, hfind]
  rw [targets_eq_map (by simp [hb]), hb]
  rfl

theorem bindings_of_no_heir (hown : ¬ DeclaresAt contracts caller callee)
    (hlineage : ∀ a ∈ inheritanceAt contracts caller, heir? contracts callee a = none) :
    bindings contracts caller callee = declarers contracts callee := by
  rw [bindings_of_not_declaresAt hown, List.findSome?_eq_none_iff.mpr hlineage]

theorem bound_targets (contracts : List Contract) (caller : Nat) (callee : String) :
    Bound contracts caller callee (targets contracts caller callee) := by
  by_cases hown : DeclaresAt contracts caller callee
  · rw [targets_eq_map (by simp [bindings_of_declaresAt hown]), bindings_of_declaresAt hown]
    exact .own hown
  cases hfind : (inheritanceAt contracts caller).findSome? (heir? contracts callee) with
  | some i =>
    obtain ⟨before, a, after, hlineage, ha, hbefore⟩ := List.findSome?_eq_some_iff.mp hfind
    rw [targets_of_inherited hown hlineage hbefore ha]
    obtain ⟨hi, hname, hfirst⟩ := heir?_eq_some_iff.mp ha
    exact .inherited hown hlineage (fun b hb => heir?_eq_none_iff.mp (hbefore b hb)) hi hname hfirst
  | none =>
    have hnone := List.findSome?_eq_none_iff.mp hfind
    have hb := bindings_of_no_heir hown hnone
    cases hk : declarers contracts callee with
    | nil =>
      rw [targets, hb, hk]
      exact .unresolved fun i => by simp [← mem_declarers_iff, hk]
    | cons i known =>
      rw [targets_eq_map (by simp [hb, hk]), hb]
      exact .everywhere hown (fun a ha => heir?_eq_none_iff.mp (hnone a ha))
        (pairwise_declarers _ _) (fun _ => mem_declarers_iff) (by simp [hk])

theorem Bound.eq_targets {ts : List CallNode} (h : Bound contracts caller callee ts) :
    ts = targets contracts caller callee := by
  cases h with
  | own hown =>
    rw [targets_eq_map (by simp [bindings_of_declaresAt hown]), bindings_of_declaresAt hown]
    rfl
  | inherited hown hlineage hbefore hi hname hfirst =>
    exact (targets_of_inherited hown hlineage
      (fun b hb => heir?_eq_none_iff.mpr (hbefore b hb))
      (heir?_eq_some_iff.mpr ⟨hi, hname, hfirst⟩)).symm
  | everywhere hown hlineage hsorted hmem hne =>
    have hb := bindings_of_no_heir hown fun a ha => heir?_eq_none_iff.mpr (hlineage a ha)
    obtain rfl := hsorted.eq_of_mem_iff (pairwise_declarers contracts callee)
      (fun i => (hmem i).trans mem_declarers_iff.symm)
    rw [targets_eq_map (by rwa [hb]), hb]
  | unresolved hnone =>
    have hk : declarers contracts callee = [] :=
      List.eq_nil_iff_forall_not_mem.mpr fun i => mt mem_declarers_iff.mp (hnone i)
    have hb : bindings contracts caller callee = [] := by
      rw [bindings_of_no_heir (hnone caller), hk]
      exact fun a _ => heir?_eq_none_iff.mpr fun j hj => absurd hj (hnone j)
    rw [targets, hb]

theorem name_of_mem_targets {t : CallNode} (ht : t ∈ targets contracts caller callee) :
    t.name = callee := by
  unfold targets at ht
  split at ht
  · rw [List.mem_singleton.mp ht]
  · obtain ⟨i, -, rfl⟩ := List.mem_map.mp ht
    rfl

/-- A name is bound in exactly one way. -/
theorem bound_iff {ts : List CallNode} :
    Bound contracts caller callee ts ↔ ts = targets contracts caller callee :=
  ⟨Bound.eq_targets, fun h => h ▸ bound_targets contracts caller callee⟩

end TokenAudit.CallGraph
