import TokenAudit.Proofs.Hierarchy.Climb
import TokenAudit.Proofs.Hierarchy.Merge

/-! Linearization of hierarchies without cycles: what is kept from one declaration to the next
changes nothing, and every declaration gets the merged order of all names above it. -/

namespace TokenAudit.Hierarchy

open Relation

variable {h : Hierarchy}

/-- The recursion of `ancestors` when nothing that has been found is kept. -/
def ancestorsAfresh (h : Hierarchy) (depth : Nat) (underway : List Nat) (d : Nat) : List String :=
  match depth with
  | 0 => []
  | depth + 1 =>
    if d ∈ underway then []
    else Merge.mergeOrFlatten (h.rowsOf (ancestorsAfresh h depth (d :: underway)) d)

/-- The names above a declaration, found for it alone. -/
def lineage (h : Hierarchy) (d : Nat) : List String := h.ancestorsAfresh (h.size + 1) [] d

/-- The names above a declaration in the linearized contracts. -/
def inheritanceOf (h : Hierarchy) (d : Nat) : List String :=
  (h.linearize[d]?.map (·.inheritance)).getD []

theorem mem_flatten_rowsOf {above : Nat → List String} {d : Nat} {n : String} :
    n ∈ (h.rowsOf above d).flatten ↔ n ∈ h.basesOf d ∨ ∃ b, h.Extends d b ∧ n ∈ above b := by
  simp only [rowsOf, List.flatten_append, List.mem_append, List.mem_flatten, List.mem_map,
    List.mem_reverse, List.mem_singleton, Extends]
  constructor
  · rintro (⟨-, ⟨base, hbase, rfl⟩, hn⟩ | ⟨-, rfl, hn⟩)
    · rcases List.mem_cons.mp hn with rfl | hn
      · exact Or.inl hbase
      · cases hr : h.resolve? d base with
        | none => simp [hr] at hn
        | some b => exact Or.inr ⟨b, ⟨base, hbase, hr⟩, by simpa [hr] using hn⟩
    · exact Or.inl (List.mem_reverse.mp hn)
  · rintro (hn | ⟨b, ⟨base, hbase, hr⟩, hn⟩)
    · exact Or.inr ⟨_, rfl, List.mem_reverse.mpr hn⟩
    · exact Or.inl ⟨_, ⟨base, hbase, rfl⟩, by simp [hr, hn]⟩

theorem rowsOf_congr {above above' : Nat → List String} {d : Nat}
    (ha : ∀ b, h.Extends d b → above b = above' b) : h.rowsOf above d = h.rowsOf above' d := by
  unfold rowsOf
  congr 1
  refine List.map_congr_left fun base hbase => ?_
  cases hr : h.resolve? d base with
  | none => rfl
  | some b => simp [ha b ⟨base, List.mem_reverse.mp hbase, hr⟩]

/-- The declarations under way all stand below `d`, as they do when `d` is reached from them. -/
structure Below (h : Hierarchy) (depth : Nat) (underway : List Nat) (d : Nat) : Prop
    extends h.Roomy depth underway where
  below : ∀ u ∈ underway, TransGen h.Extends u d

theorem below_start (d : Nat) : h.Below (h.size + 1) [] d := ⟨roomy_start, by simp⟩

theorem Below.not_mem {depth d : Nat} {underway : List Nat} (hb : h.Below depth underway d)
    (hd : h.AcyclicFrom d) : d ∉ underway :=
  fun hu => hd d .refl (hb.below d hu)

theorem Below.step {depth d b : Nat} {underway : List Nat} (hb : h.Below (depth + 1) underway d)
    (hd : h.AcyclicFrom d) (hx : h.Extends d b) : h.Below depth (d :: underway) b := by
  refine ⟨hb.enter hx.lt_size (hb.not_mem hd), ?_⟩
  intro u hu
  rcases List.mem_cons.mp hu with rfl | hu
  · exact .single hx
  · exact (hb.below u hu).tail hx

theorem ancestorsAfresh_succ {depth d : Nat} {underway : List Nat} (hd : h.AcyclicFrom d)
    (hb : h.Below (depth + 1) underway d) :
    h.ancestorsAfresh (depth + 1) underway d =
      Merge.mergeOrFlatten (h.rowsOf (h.ancestorsAfresh depth (d :: underway)) d) := by
  rw [ancestorsAfresh, if_neg (hb.not_mem hd)]

/-- Without cycles it does not matter on which way a declaration is reached. -/
theorem ancestorsAfresh_eq {depth depth' d : Nat} {underway underway' : List Nat}
    (hd : h.AcyclicFrom d) (hb : h.Below depth underway d) (hb' : h.Below depth' underway' d) :
    h.ancestorsAfresh depth underway d = h.ancestorsAfresh depth' underway' d := by
  induction depth generalizing depth' d underway underway' with
  | zero => exact absurd hb.depth_pos (Nat.lt_irrefl 0)
  | succ depth ih =>
    cases depth' with
    | zero => exact absurd hb'.depth_pos (Nat.lt_irrefl 0)
    | succ depth' =>
      rw [ancestorsAfresh_succ hd hb, ancestorsAfresh_succ hd hb']
      congr 1
      exact rowsOf_congr fun b hx => ih (hd.step hx) (hb.step hd hx) (hb'.step hd hx)

theorem AcyclicFrom.lineage_eq {d : Nat} (hd : h.AcyclicFrom d) :
    h.lineage d = Merge.mergeOrFlatten (h.rowsOf h.lineage d) := by
  rw [lineage, ancestorsAfresh_succ hd (below_start d)]
  congr 1
  exact rowsOf_congr fun b hx =>
    ancestorsAfresh_eq (hd.step hx) ((below_start d).step hd hx) (below_start b)

theorem lineage_eq (acyclic : h.Acyclic) (d : Nat) :
    h.lineage d = Merge.mergeOrFlatten (h.rowsOf h.lineage d) :=
  (acyclic.acyclicFrom d).lineage_eq

theorem nodup_lineage (acyclic : h.Acyclic) (d : Nat) : (h.lineage d).Nodup := by
  rw [lineage_eq acyclic]
  exact Merge.nodup_mergeOrFlatten _

/-- Every name has been written by a declaration on the way. The induction is on the depth, which
holds whether or not it leaves room. -/
theorem exists_of_mem_ancestorsAfresh {depth d : Nat} {underway : List Nat} {n : String}
    (hn : n ∈ h.ancestorsAfresh depth underway d) :
    ∃ e, ReflTransGen h.Extends d e ∧ n ∈ h.basesOf e := by
  induction depth generalizing d underway with
  | zero => simp [ancestorsAfresh] at hn
  | succ depth ih =>
    rw [ancestorsAfresh] at hn
    split_ifs at hn with hd
    · cases hn
    · rw [Merge.mem_mergeOrFlatten, mem_flatten_rowsOf] at hn
      rcases hn with hn | ⟨b, hx, hn⟩
      · exact ⟨d, .refl, hn⟩
      · obtain ⟨e, he, hne⟩ := ih hn
        exact ⟨e, he.head hx, hne⟩

theorem mem_lineage_iff (acyclic : h.Acyclic) {d : Nat} {n : String} :
    n ∈ h.lineage d ↔ ∃ e, ReflTransGen h.Extends d e ∧ n ∈ h.basesOf e := by
  refine ⟨exists_of_mem_ancestorsAfresh, ?_⟩
  rintro ⟨e, he, hn⟩
  induction he using ReflTransGen.head_induction_on with
  | refl =>
    rw [lineage_eq acyclic, Merge.mem_mergeOrFlatten, mem_flatten_rowsOf]
    exact Or.inl hn
  | head hx _ ih =>
    rw [lineage_eq acyclic, Merge.mem_mergeOrFlatten, mem_flatten_rowsOf]
    exact Or.inr ⟨_, hx, ih⟩

/-- What has been found is the lineage of its declaration, where no cycle is met from there. -/
def Progress.Correct (h : Hierarchy) (p : Progress) : Prop :=
  ∀ b names, p.found.lookup b = some names → h.AcyclicFrom b → names = h.lineage b

theorem Progress.Correct.leave {p : Progress} (hp : p.Correct h) {d : Nat} {names : List String}
    (hn : h.AcyclicFrom d → names = h.lineage d) : (p.leave d names).Correct h := by
  intro b names' hb
  simp only [Progress.leave, List.lookup_cons] at hb
  split at hb
  · next hd =>
    obtain rfl : b = d := by simpa using hd
    obtain rfl : names = names' := Option.some.inj hb
    exact hn
  · exact hp b names' hb

/-- The rows of a climb are those of the lineages, if it meets no cycle: a declaration under way
that is met again would close one. -/
theorem Climb.rows_eq {d : Nat} {bases : List String} {p q : Progress}
    {rows : List (List String)} (hc : Climb h d bases p q rows)
    (hsub : ∀ base ∈ bases, base ∈ h.basesOf d) (hp : p.Correct h)
    (hu : ∀ u ∈ p.underway, ReflTransGen h.Extends u d) :
    (h.AcyclicFrom d →
      rows = bases.map fun base => base :: (h.resolve? d base).elim [] h.lineage) ∧
      q.Correct h := by
  induction hc with
  | done => exact ⟨fun _ => rfl, hp⟩
  | leaf hr _ ih =>
    obtain ⟨hrows, hq⟩ := ih (fun b hb => hsub b (List.mem_cons_of_mem _ hb)) hp hu
    exact ⟨fun hd => by simp [hr, hrows hd], hq⟩
  | @known d base bases b names p q rows hr hk _ ih =>
    obtain ⟨hrows, hq⟩ := ih (fun b hb => hsub b (List.mem_cons_of_mem _ hb)) hp hu
    have hx : h.Extends d b := ⟨base, hsub base List.mem_cons_self, hr⟩
    refine ⟨fun hd => ?_, hq⟩
    rcases Progress.known?_eq_some_iff.mp hk with hf | ⟨-, hb, -⟩
    · simp [hr, hrows hd, hp b names hf (hd.step hx)]
    · exact absurd (TransGen.head' hx (hu b hb)) (hd d .refl)
  | @visit d base bases b p q r above rows names hr _ hb hn _ ihb ihc =>
    have hx : h.Extends d b := ⟨base, hsub base List.mem_cons_self, hr⟩
    have hub : ∀ u ∈ (p.enter b).underway, ReflTransGen h.Extends u b := by
      intro u hu'
      rcases List.mem_cons.mp hu' with rfl | hu'
      · exact .refl
      · exact (hu u hu').tail hx
    obtain ⟨habove, hq⟩ := ihb (fun base => List.mem_reverse.mp) hp hub
    have hnames : h.AcyclicFrom b → names = h.lineage b := by
      intro hd
      rw [hn, habove hd, hd.lineage_eq]
      rfl
    have hleave : (q.leave b names).underway = p.underway :=
      Progress.underway_leave_enter hb.underway_eq _
    obtain ⟨hrows, hr'⟩ := ihc (fun b hb => hsub b (List.mem_cons_of_mem _ hb)) (hq.leave hnames)
      (by rwa [hleave])
    exact ⟨fun hd => by simp [hr, hrows hd, hnames (hd.step hx)], hr'⟩

theorem Visit.eq_lineage {d : Nat} {p q : Progress} {names : List String}
    (hv : Visit h d p q names) (hp : p.Correct h) (hu : p.underway = []) :
    (h.AcyclicFrom d → names = h.lineage d) ∧ q.Correct h := by
  cases hv with
  | known hk =>
    rcases Progress.known?_eq_some_iff.mp hk with hf | ⟨-, hd, -⟩
    · exact ⟨hp d names hf, hp⟩
    · simp [hu] at hd
  | climb _ hb hn =>
    obtain ⟨hrows, hq⟩ := hb.rows_eq (fun base => List.mem_reverse.mp) hp
      (by simp [Progress.enter, hu, ReflTransGen.refl])
    have hnames : h.AcyclicFrom d → names = h.lineage d := by
      intro hd
      rw [hn, hrows hd, hd.lineage_eq]
      rfl
    exact ⟨hnames, hq.leave hnames⟩

private theorem foldl_lineage (acyclic : h.Acyclic) (ds : List Nat) (hd : ∀ d ∈ ds, d < h.size)
    (found : List (Nat × List String)) (names : List (List String))
    (hf : ({ found } : Progress).Correct h) :
    (ds.foldl h.linearizeNext (found, names)).2 = names ++ ds.map h.lineage := by
  induction ds generalizing found names with
  | nil => simp
  | cons d ds ih =>
    have hv : Visit h d { found } _ _ := ancestors_visit roomy_start (hd d List.mem_cons_self)
    obtain ⟨hlineage, hq⟩ := hv.eq_lineage hf rfl
    have hnames := hlineage (acyclic.acyclicFrom d)
    have hrest := ih (fun d hd' => hd d (List.mem_cons_of_mem _ hd'))
      (h.ancestors (h.size + 1) d { found }).1.found (names ++ [h.lineage d]) hq
    rw [List.foldl_cons]
    simpa [linearizeNext, hnames] using hrest

theorem lineages_eq (acyclic : h.Acyclic) :
    h.lineages = (List.range h.size).map h.lineage := by
  have hfold := foldl_lineage acyclic (List.range h.size) (by simp) [] [] (by simp [Progress.Correct])
  simpa [lineages_eq_foldl] using hfold

theorem linearize_getElem? (acyclic : h.Acyclic) {d : Nat} {decl : Declaration}
    (hd : h.declarations[d]? = some decl) :
    h.linearize[d]? = some (decl.toContract (h.lineage d)) := by
  have hlt : d < h.size := (List.getElem?_eq_some_iff.mp hd).1
  simp [linearize, lineages_eq acyclic, List.getElem?_zipWith, hd, hlt]

theorem length_linearize (acyclic : h.Acyclic) : h.linearize.length = h.size := by
  simp [linearize, lineages_eq acyclic, size]

theorem inheritanceOf_eq (acyclic : h.Acyclic) {d : Nat} (hd : d < h.size) :
    h.inheritanceOf d = h.lineage d := by
  simp [inheritanceOf, linearize_getElem? acyclic (List.getElem?_eq_getElem hd),
    Declaration.toContract]

/-- Without cycles each declaration gives one contract, in order. The names it inherits are those
that a search from it alone finds: every base written by it or by a declaration above it, once
each, in an order that agrees with its rows if there is one. -/
theorem linearize_of_acyclic (h : Hierarchy) (acyclic : h.Acyclic) :
    h.linearize.length = h.declarations.length ∧
      ∀ d decl, h.declarations[d]? = some decl →
        ∃ names, h.linearize[d]? = some (decl.toContract names) ∧
          names = h.ancestorsAfresh (h.size + 1) [] d ∧
          names.Nodup ∧
          (∀ n, n ∈ names ↔ ∃ e, ReflTransGen h.Extends d e ∧ n ∈ h.basesOf e) ∧
          ((∃ order, Merge.Agrees order (h.rowsOf h.inheritanceOf d)) →
            Merge.Agrees names (h.rowsOf h.inheritanceOf d)) ∧
          ((¬ ∃ order, Merge.Agrees order (h.rowsOf h.inheritanceOf d)) →
            names = (h.rowsOf h.inheritanceOf d).flatten.eraseDups) := by
  refine ⟨length_linearize acyclic, fun d decl hd => ?_⟩
  have hrows : h.rowsOf h.lineage d = h.rowsOf h.inheritanceOf d :=
    rowsOf_congr fun b ⟨_, _, hr⟩ => (inheritanceOf_eq acyclic (lt_size_of_resolve? hr)).symm
  refine ⟨h.lineage d, linearize_getElem? acyclic hd, rfl, nodup_lineage acyclic d,
    fun n => mem_lineage_iff acyclic, ?_, ?_⟩ <;> rw [lineage_eq acyclic, hrows]
  · exact Merge.agrees_mergeOrFlatten
  · exact Merge.mergeOrFlatten_of_not_agrees

/-- Two ways lead from `Token` to `Context`, and the bases of `Proxy` stand the wrong way round. -/
def diamond : Hierarchy where
  declarations :=
    [⟨"Context", .abstract, "Context.sol", 1, [], []⟩,
      ⟨"Ownable", .contract, "Ownable.sol", 1, ["Context"], []⟩,
      ⟨"Pausable", .contract, "Pausable.sol", 1, ["Context"], []⟩,
      ⟨"Token", .contract, "Token.sol", 1, ["Ownable", "Pausable"], []⟩,
      ⟨"Proxy", .contract, "Proxy.sol", 1, ["Ownable", "Context", "Unknown"], []⟩]

theorem linearize_of_acyclic_diamond :
    diamond.Acyclic ∧
      diamond.linearize.map (·.inheritance) =
        [[], ["Context"], ["Context"], ["Pausable", "Ownable", "Context"],
          ["Unknown", "Context", "Ownable"]] ∧
      ∃ names, diamond.inheritanceOf 3 = names ∧ names.Nodup ∧
        Merge.Agrees names (diamond.rowsOf diamond.inheritanceOf 3) := by
  have acyclic : diamond.Acyclic := acyclic_of_lt (by decide +kernel)
  obtain ⟨names, hnames, -, hnodup, -, hagrees, -⟩ :=
    (linearize_of_acyclic diamond acyclic).2 3 _ rfl
  refine ⟨acyclic, by decide +kernel, names, by simp [inheritanceOf, hnames, Declaration.toContract],
    hnodup, hagrees ⟨["Pausable", "Ownable", "Context"], by decide, ?_⟩⟩
  have hrows : diamond.rowsOf diamond.inheritanceOf 3 =
      [["Pausable", "Context"], ["Ownable", "Context"], ["Pausable", "Ownable"]] := by
    decide +kernel
  rw [hrows]
  decide

end TokenAudit.Hierarchy
