import TokenAudit.Proofs.Hierarchy.Completion

/-! Linearization of hierarchies with cycles. A cycle is cut where a declaration under way is met
again, but by then its name has been put in front of the cut: some declaration of every cycle is
listed among its own bases. -/

namespace TokenAudit.Hierarchy

open Relation

variable {h : Hierarchy} {d x y : Nat}

/-- Declaration `d` is listed among its own bases. -/
def ListsItself (h : Hierarchy) (d : Nat) : Prop := h.nameOf d ∈ h.inheritanceOf d

instance : Decidable (h.ListsItself d) := inferInstanceAs (Decidable (_ ∈ _))

theorem completed_before_or_listsItself (distinct : h.Distinct) (hw : h.Writes x y) :
    h.completion.idxOf y < h.completion.idxOf x ∨ h.ListsItself y := by
  have hsound := sound_explored distinct (Nat.le_refl h.size)
  rcases hsound.settled x y (mem_completion distinct hw.lt_size) hw with
    hlt | hu | ⟨names, hy, hlists⟩
  · exact Or.inl hlt
  · rw [underway_explored (Nat.le_refl h.size)] at hu
    cases hu
  · obtain rfl : names = h.inheritanceOf y :=
      Option.some.inj (hy.symm.trans (lookup_lineages distinct hw.1))
    exact Or.inr hlists

theorem exists_writes_of_mem_inheritanceOf (distinct : h.Distinct) (hd : d < h.size)
    {n : String} (hn : n ∈ h.inheritanceOf d) :
    ∃ x, ReflTransGen h.Extends d x ∧ n ∈ h.basesOf x ∧
      h.completion.idxOf x ≤ h.completion.idxOf d := by
  have hsound := sound_explored distinct (Nat.le_refl h.size)
  obtain ⟨x, hpath, hx, -, hle⟩ := hsound.written d _ (lookup_lineages distinct hd) n hn
  exact ⟨x, hpath, hx, hle⟩

theorem listsItself_iff (distinct : h.Distinct) (hd : d < h.size) :
    h.ListsItself d ↔
      ∃ x, h.Writes x d ∧ h.completion.idxOf x ≤ h.completion.idxOf d := by
  constructor
  · intro hlists
    obtain ⟨x, -, hx, hle⟩ := exists_writes_of_mem_inheritanceOf distinct hd hlists
    exact ⟨x, ⟨hd, hx⟩, hle⟩
  · rintro ⟨x, hw, hle⟩
    rcases completed_before_or_listsItself distinct hw with hlt | hlists
    · omega
    · exact hlists

theorem ListsItself.on_cycle (distinct : h.Distinct) (hd : d < h.size)
    (hlists : h.ListsItself d) : TransGen h.Writes d d := by
  obtain ⟨x, hpath, hx, -⟩ := exists_writes_of_mem_inheritanceOf distinct hd hlists
  have hback : h.Writes x d := ⟨hd, hx⟩
  exact TransGen.tail' (hpath.lift id fun _ _ => Extends.writes) hback

/-- Along a cycle on which no declaration lists itself, each is completed after the next. -/
theorem exists_listsItself_of_cycle (distinct : h.Distinct) (hd : TransGen h.Writes d d) :
    ∃ e, TransGen h.Writes d e ∧ TransGen h.Writes e d ∧ h.ListsItself e := by
  by_contra hnone
  have hlt : ∀ y, TransGen h.Writes d y → TransGen h.Writes y d →
      h.completion.idxOf y < h.completion.idxOf d := by
    intro y hdy
    induction hdy with
    | single hw =>
      intro hyd
      exact (completed_before_or_listsItself distinct hw).resolve_right
        fun hlists => hnone ⟨_, .single hw, hyd, hlists⟩
    | @tail x y hdx hw ih =>
      intro hyd
      have hx := ih (hyd.head hw)
      have hy := (completed_before_or_listsItself distinct hw).resolve_right
        fun hlists => hnone ⟨_, hdx.tail hw, hyd, hlists⟩
      exact Nat.lt_trans hy hx
  exact Nat.lt_irrefl _ (hlt d hd hd)

/-- Of declarations with distinct names, those on a cycle alone can be listed among their own
bases, and at least one on each cycle is. Which one is a matter of the order of the declarations:
one whose name is written by another that is completed no later, or by itself. -/
theorem listsItself_on_cycles (distinct : h.Distinct) :
    (∀ d < h.size, h.ListsItself d ↔
      ∃ x, h.Writes x d ∧ h.completion.idxOf x ≤ h.completion.idxOf d) ∧
    (∀ d < h.size, h.ListsItself d → TransGen h.Writes d d) ∧
    (∀ d, TransGen h.Writes d d →
      ∃ e, TransGen h.Writes d e ∧ TransGen h.Writes e d ∧ h.ListsItself e) := by
  refine ⟨fun d hd => listsItself_iff distinct hd, fun d hd hlists => ?_, fun d hd => ?_⟩
  · exact hlists.on_cycle distinct hd
  · exact exists_listsItself_of_cycle distinct hd

/-- Two contracts that are bases of each other. -/
def looped : Hierarchy where
  declarations :=
    [⟨"A", .contract, "Loop.sol", 1, ["B"], []⟩, ⟨"B", .contract, "Loop.sol", 2, ["A"], []⟩]

/-- The first of them lists itself: it was under way when its name was met. -/
theorem looped_lists_itself :
    looped.Distinct ∧
      looped.linearize.map (fun c => (c.name, c.inheritance)) =
        [("A", ["B", "A"]), ("B", ["A"])] ∧
      ∃ c ∈ looped.linearize, c.name ∈ c.inheritance := by
  refine ⟨by decide, by decide +kernel, by decide +kernel⟩

theorem listsItself_on_cycles_looped :
    looped.Distinct ∧ looped.completion = [1, 0] ∧ TransGen looped.Writes 0 0 ∧
      looped.ListsItself 0 ∧ ¬ looped.ListsItself 1 ∧
      ∃ e, TransGen looped.Writes 0 e ∧ TransGen looped.Writes e 0 ∧ looped.ListsItself e := by
  have distinct : looped.Distinct := by decide
  have hab : looped.Writes 0 1 := by decide
  have hba : looped.Writes 1 0 := by decide
  have hcompletion : looped.completion = [1, 0] := by decide +kernel
  obtain ⟨hiff, hcycle, hexists⟩ := listsItself_on_cycles distinct
  have hfirst : looped.ListsItself 0 := by
    refine (hiff 0 (by decide)).mpr ⟨1, hba, ?_⟩
    rw [hcompletion]
    decide
  have hsecond : ¬ looped.ListsItself 1 := by
    rw [hiff 1 (by decide), hcompletion]
    rintro ⟨x, hw, hle⟩
    have hx : x < 2 := hw.lt_size
    obtain rfl | rfl : x = 0 ∨ x = 1 := by omega
    · exact absurd hle (by decide)
    · exact absurd hw (by decide)
  have hloop : TransGen looped.Writes 0 0 := hcycle 0 (by decide) hfirst
  exact ⟨distinct, hcompletion, hloop, hfirst, hsecond, hexists 0 (.tail (.single hab) hba)⟩

end TokenAudit.Hierarchy
