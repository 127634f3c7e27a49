import Mathlib.Data.List.Nodup
import Mathlib.Data.List.Perm.Subperm
import TokenAudit.Hierarchy.Linearize
import TokenAudit.Proofs.Hierarchy.Resolution

/-! Linearization as a relation between what is known before and after, without a bound on its
depth. `ancestors` runs by these rules whatever the bases, cyclic or not. -/

namespace TokenAudit.Hierarchy

namespace Progress

/-- What is known above `d` without going there: what has been found or, on the way from `d`,
nothing. -/
def known? (p : Progress) (d : Nat) : Option (List String) :=
  match p.found.lookup d with
  | some names => some names
  | none => if d ∈ p.underway then some [] else none

def enter (p : Progress) (d : Nat) : Progress := { p with underway := d :: p.underway }

def leave (p : Progress) (d : Nat) (names : List String) : Progress :=
  { found := (d, names) :: p.found, underway := p.underway.erase d }

theorem known?_eq_some_iff {p : Progress} {d : Nat} {names : List String} :
    p.known? d = some names ↔
      p.found.lookup d = some names ∨ p.found.lookup d = none ∧ d ∈ p.underway ∧ names = [] := by
  unfold known?
  cases p.found.lookup d <;> simp [eq_comm]

theorem known?_eq_none_iff {p : Progress} {d : Nat} :
    p.known? d = none ↔ p.found.lookup d = none ∧ d ∉ p.underway := by
  unfold known?
  cases p.found.lookup d <;> simp

theorem underway_leave_enter {p q : Progress} {d : Nat} (hq : q.underway = (p.enter d).underway)
    (names : List String) : (q.leave d names).underway = p.underway := by
  simp [leave, hq, enter]

end Progress

variable {h : Hierarchy}

/-- The rows of declaration `d`, given the names above every other one: each base, last first,
with the names above it, and then the bases alone. -/
def rowsOf (h : Hierarchy) (above : Nat → List String) (d : Nat) : List (List String) :=
  (h.basesOf d).reverse.map (fun base => base :: (h.resolve? d base).elim [] above) ++
    [(h.basesOf d).reverse]

/-- The rows that bases of `d` give one after another, and the progress made for them. -/
inductive Climb (h : Hierarchy) :
    Nat → List String → Progress → Progress → List (List String) → Prop
  | done {d p} : Climb h d [] p p []
  | leaf {d base bases p q rows} (hr : h.resolve? d base = none) (hc : Climb h d bases p q rows) :
      Climb h d (base :: bases) p q ([base] :: rows)
  | known {d base bases b names p q rows} (hr : h.resolve? d base = some b)
      (hk : p.known? b = some names) (hc : Climb h d bases p q rows) :
      Climb h d (base :: bases) p q ((base :: names) :: rows)
  | visit {d base bases b p q r above rows names} (hr : h.resolve? d base = some b)
      (hk : p.known? b = none) (hb : Climb h b (h.basesOf b).reverse (p.enter b) q above)
      (hn : names = Merge.mergeOrFlatten (above ++ [(h.basesOf b).reverse]))
      (hc : Climb h d bases (q.leave b names) r rows) :
      Climb h d (base :: bases) p r ((base :: names) :: rows)

/-- The names above declaration `d` and the progress made to find them. -/
inductive Visit (h : Hierarchy) (d : Nat) (p : Progress) : Progress → List String → Prop
  | known {names} (hk : p.known? d = some names) : Visit h d p p names
  | climb {q above names} (hk : p.known? d = none)
      (hb : Climb h d (h.basesOf d).reverse (p.enter d) q above)
      (hn : names = Merge.mergeOrFlatten (above ++ [(h.basesOf d).reverse])) :
      Visit h d p (q.leave d names) names

theorem Climb.underway_eq {d : Nat} {bases : List String} {p q : Progress}
    {rows : List (List String)} (hc : Climb h d bases p q rows) : q.underway = p.underway := by
  induction hc with
  | done => rfl
  | leaf _ _ ih => exact ih
  | known _ _ _ ih => exact ih
  | visit _ _ _ _ _ ihb ihc => rw [ihc, Progress.underway_leave_enter ihb]

theorem Visit.underway_eq {d : Nat} {p q : Progress} {names : List String}
    (hv : Visit h d p q names) : q.underway = p.underway := by
  cases hv with
  | known => rfl
  | climb _ hb _ => exact Progress.underway_leave_enter hb.underway_eq _

/-- A visit to a base followed by a climb over the other bases. -/
theorem Climb.step {d b : Nat} {base : String} {bases names : List String} {p q r : Progress}
    {rows : List (List String)} (hr : h.resolve? d base = some b) (hv : Visit h b p q names)
    (hc : Climb h d bases q r rows) : Climb h d (base :: bases) p r ((base :: names) :: rows) := by
  cases hv with
  | known hk => exact .known hr hk hc
  | climb hk hb hn => exact .visit hr hk hb hn hc

/-- A climb has one outcome. -/
theorem Climb.unique {d : Nat} {bases : List String} {p q q' : Progress}
    {rows rows' : List (List String)} (hc : Climb h d bases p q rows)
    (hc' : Climb h d bases p q' rows') : q = q' ∧ rows = rows' := by
  induction hc generalizing q' rows' with
  | done =>
    cases hc'
    exact ⟨rfl, rfl⟩
  | leaf hr _ ih =>
    cases hc' with
    | leaf _ hc' =>
      obtain ⟨rfl, rfl⟩ := ih hc'
      exact ⟨rfl, rfl⟩
    | known hr' | visit hr' => cases hr.symm.trans hr'
  | known hr hk _ ih =>
    cases hc' with
    | leaf hr' => cases hr.symm.trans hr'
    | known hr' hk' hc' =>
      cases hr.symm.trans hr'
      cases hk.symm.trans hk'
      obtain ⟨rfl, rfl⟩ := ih hc'
      exact ⟨rfl, rfl⟩
    | visit hr' hk' =>
      cases hr.symm.trans hr'
      cases hk.symm.trans hk'
  | visit hr hk _ hn _ ihb ihc =>
    cases hc' with
    | leaf hr' => cases hr.symm.trans hr'
    | known hr' hk' =>
      cases hr.symm.trans hr'
      cases hk.symm.trans hk'
    | visit hr' _ hb' hn' hc' =>
      cases hr.symm.trans hr'
      obtain ⟨rfl, rfl⟩ := ihb hb'
      obtain rfl := hn.trans hn'.symm
      obtain ⟨rfl, rfl⟩ := ihc hc'
      exact ⟨rfl, rfl⟩

theorem Visit.unique {d : Nat} {p q q' : Progress} {names names' : List String}
    (hv : Visit h d p q names) (hv' : Visit h d p q' names') : q = q' ∧ names = names' := by
  cases hv with
  | known hk =>
    cases hv' with
    | known hk' => exact ⟨rfl, Option.some.inj (hk.symm.trans hk')⟩
    | climb hk' => cases hk.symm.trans hk'
  | climb hk hb hn =>
    cases hv' with
    | known hk' => cases hk.symm.trans hk'
    | climb _ hb' hn' =>
      obtain ⟨rfl, rfl⟩ := hb.unique hb'
      obtain rfl := hn.trans hn'.symm
      exact ⟨rfl, rfl⟩

/-- What `depth` must leave room for: all declarations that are not under way, and a last look at
one that is. -/
structure Roomy (h : Hierarchy) (depth : Nat) (underway : List Nat) : Prop where
  nodup : underway.Nodup
  lt_size : ∀ u ∈ underway, u < h.size
  room : h.size < depth + underway.length

theorem Roomy.depth_pos {depth : Nat} {underway : List Nat} (hr : h.Roomy depth underway) :
    0 < depth := by
  have hsub : underway ⊆ List.range h.size := fun u hu => List.mem_range.mpr (hr.lt_size u hu)
  have hle := (List.subperm_of_subset hr.nodup hsub).length_le
  rw [List.length_range] at hle
  have := hr.room
  omega

theorem Roomy.enter {depth d : Nat} {underway : List Nat} (hr : h.Roomy (depth + 1) underway)
    (hd : d < h.size) (hu : d ∉ underway) : h.Roomy depth (d :: underway) := by
  refine ⟨List.nodup_cons.mpr ⟨hu, hr.nodup⟩, ?_, ?_⟩
  · simpa using ⟨hd, hr.lt_size⟩
  · have := hr.room
    simp only [List.length_cons]
    omega

theorem roomy_start : h.Roomy (h.size + 1) [] := ⟨List.nodup_nil, by simp, by simp⟩

theorem ancestors_succ (depth d : Nat) (p : Progress) :
    h.ancestors (depth + 1) d p =
      match p.known? d with
      | some names => (p, names)
      | none =>
        let climbed := (h.basesOf d).reverse.foldl
          (fun (acc : Progress × List (List String)) base =>
            let (q, above) := match h.resolve? d base with
              | some b => h.ancestors depth b acc.1
              | none => (acc.1, [])
            (q, acc.2 ++ [base :: above]))
          (p.enter d, [])
        let names := Merge.mergeOrFlatten (climbed.2 ++ [(h.basesOf d).reverse])
        (climbed.1.leave d names, names) := by
  rw [ancestors, Progress.known?]
  cases p.found.lookup d with
  | some names => rfl
  | none =>
    by_cases hd : d ∈ p.underway
    · simp only [hd, if_true]
    · simp only [hd, if_false]
      rfl

/-- Climbing by a function that visits is a climb. -/
theorem climb_foldl {visit : Nat → Progress → Progress × List String} {d : Nat}
    {underway : List Nat}
    (hv : ∀ b p, b < h.size → p.underway = underway → Visit h b p (visit b p).1 (visit b p).2)
    (bases : List String) (p : Progress) (rows : List (List String)) (hp : p.underway = underway) :
    ∃ q above,
      bases.foldl
        (fun (acc : Progress × List (List String)) base =>
          let (q, above) := match h.resolve? d base with
            | some b => visit b acc.1
            | none => (acc.1, [])
          (q, acc.2 ++ [base :: above]))
        (p, rows) = (q, rows ++ above) ∧ Climb h d bases p q above := by
  induction bases generalizing p rows with
  | nil => exact ⟨p, [], by simp, .done⟩
  | cons base bases ih =>
    rw [List.foldl_cons]
    cases hr : h.resolve? d base with
    | none =>
      obtain ⟨q, above, hf, hc⟩ := ih p (rows ++ [[base]]) hp
      exact ⟨q, [base] :: above, by simpa using hf, .leaf hr hc⟩
    | some b =>
      have hb := hv b p (lt_size_of_resolve? hr) hp
      obtain ⟨q, above, hf, hc⟩ :=
        ih (visit b p).1 (rows ++ [base :: (visit b p).2]) (hb.underway_eq.trans hp)
      exact ⟨q, (base :: (visit b p).2) :: above, by simpa using hf, .step hr hb hc⟩

/-- With room enough `ancestors` visits: the bound on its depth is never met. -/
theorem ancestors_visit {depth d : Nat} {p : Progress} (hr : h.Roomy depth p.underway)
    (hd : d < h.size) : Visit h d p (h.ancestors depth d p).1 (h.ancestors depth d p).2 := by
  induction depth generalizing d p with
  | zero => exact absurd hr.depth_pos (Nat.lt_irrefl 0)
  | succ depth ih =>
    rw [ancestors_succ]
    cases hk : p.known? d with
    | some names => exact .known hk
    | none =>
      have hroom : h.Roomy depth (p.enter d).underway :=
        hr.enter hd (Progress.known?_eq_none_iff.mp hk).2
      have hvisit : ∀ b q, b < h.size → q.underway = (p.enter d).underway →
          Visit h b q (h.ancestors depth b q).1 (h.ancestors depth b q).2 :=
        fun b q hb hq => ih (hq ▸ hroom) hb
      obtain ⟨q, above, hf, hc⟩ :=
        climb_foldl (d := d) hvisit (h.basesOf d).reverse (p.enter d) [] rfl
      simp only [hf]
      exact .climb hk hc rfl

/-- One declaration more is linearized: what has been found is kept, and the names above it come
behind those of the declarations before it. -/
def linearizeNext (h : Hierarchy) (acc : List (Nat × List String) × List (List String)) (d : Nat) :
    List (Nat × List String) × List (List String) :=
  let visited := h.ancestors (h.size + 1) d { found := acc.1 }
  (visited.1.found, acc.2 ++ [visited.2])

theorem lineages_eq_foldl (h : Hierarchy) :
    h.lineages = ((List.range h.size).foldl h.linearizeNext ([], [])).2 := rfl

end TokenAudit.Hierarchy
