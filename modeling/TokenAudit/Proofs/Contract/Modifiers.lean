import TokenAudit.Proofs.Contract.CallGraph

/-! Modifiers in closures. A modifier is followed like a call if the calls of its member are known.
Of a member without call data the modifiers are in a closure only where something else leads to
them. -/

namespace TokenAudit.CallGraph

open TokenAudit.Graph Relation

variable {contracts : List Contract} {start : CallNode} {g : Member} {i d : Nat}
variable {f m name callee : String} {names : List String}

/-- Member `g` of the contract at position `d` has the start's node, or calls lead there from it. -/
def Reaches (contracts : List Contract) (start : CallNode) (d : Nat) (g : Member) : Prop :=
  (∃ c, contracts[d]? = some c ∧ g ∈ c.members) ∧
    ReflTransGen (Edge (ofContracts contracts).edges) start ⟨some d, g.name⟩

theorem nodup_targets (contracts : List Contract) (d : Nat) (callee : String) :
    (targets contracts d callee).Nodup := by
  generalize hts : targets contracts d callee = ts
  cases bound_iff.mpr hts.symm with
  | own | inherited | unresolved => exact List.nodup_singleton _
  | everywhere _ _ hsorted =>
    have hdistinct : (_ : List Nat).Nodup := hsorted.imp Nat.ne_of_lt
    refine hdistinct.map fun j k hjk => ?_
    simpa using hjk

theorem targets_ne_nil (contracts : List Contract) (d : Nat) (callee : String) :
    targets contracts d callee ≠ [] := by
  generalize hts : targets contracts d callee = ts
  cases bound_iff.mpr hts.symm with
  | own | inherited | unresolved => exact List.cons_ne_nil _ _
  | everywhere _ _ _ _ hne => simpa using hne

/-- A name is bound to one node alone, or to some other node too. -/
theorem targets_eq_singleton_or (contracts : List Contract) (d : Nat) (callee : String)
    (a : CallNode) :
    targets contracts d callee = [a] ∨ ∃ b ∈ targets contracts d callee, b ≠ a := by
  by_cases hall : ∀ b ∈ targets contracts d callee, b = a
  · refine Or.inl ?_
    have hreplicate := List.eq_replicate_of_mem hall
    have hnodup := nodup_targets contracts d callee
    have hne := targets_ne_nil contracts d callee
    rw [hreplicate, List.nodup_replicate] at hnodup
    rw [← List.length_pos_iff] at hne
    have hone : (targets contracts d callee).length = 1 := by omega
    rw [hreplicate, hone]
    rfl
  · simp only [not_forall, exists_prop] at hall
    exact Or.inr hall

theorem mem_closure_iff (hc : closure? (ofContracts contracts) i f = some names) :
    name ∈ names ↔ ∃ b, ReflTransGen (Edge (ofContracts contracts).edges) ⟨some i, f⟩ b ∧
      b ≠ ⟨some i, f⟩ ∧ b.name = name := by
  unfold closure? at hc
  dsimp only at hc
  split_ifs at hc
  rw [← Option.some.inj hc]
  simp [mem_preorder_iff, and_assoc]

/-- What a member leads to that is reached is reached, and all its names but those that are bound
to the start alone are in the closure. -/
theorem mem_closure_of_leadsTo (hc : closure? (ofContracts contracts) i f = some names)
    (hg : Reaches contracts ⟨some i, f⟩ d g) (hl : LeadsTo g callee)
    (hne : targets contracts d callee ≠ [⟨some i, f⟩]) : callee ∈ names := by
  obtain ⟨⟨c, hcontract, hmember⟩, hpath⟩ := hg
  obtain ⟨b, hb, hother⟩ := (targets_eq_singleton_or contracts d callee _).resolve_left hne
  have hcallee : callee ∈ calleesAt contracts d g.name :=
    mem_calleesAt_iff.mpr ⟨c, g, hcontract, hmember, rfl, hl⟩
  have hedge : Edge (ofContracts contracts).edges ⟨some d, g.name⟩ b :=
    mem_edges_iff.mpr (List.mem_flatMap.mpr ⟨callee, hcallee, hb⟩)
  exact (mem_closure_iff hc).mpr ⟨b, hpath.tail hedge, hother, name_of_mem_targets hb⟩

/-- The names of a closure are those that reached members with call data lead to. -/
theorem mem_closure_iff_exists_leadsTo (hc : closure? (ofContracts contracts) i f = some names) :
    callee ∈ names ↔ ∃ d g, Reaches contracts ⟨some i, f⟩ d g ∧ LeadsTo g callee ∧
      targets contracts d callee ≠ [⟨some i, f⟩] := by
  constructor
  · intro hname
    obtain ⟨b, hpath, hother, rfl⟩ := (mem_closure_iff hc).mp hname
    -- The last step to a node other than the start is a call or a modifier of a member.
    obtain heq | ⟨a, ha, hedge⟩ := ReflTransGen.cases_tail hpath
    · exact absurd heq hother
    obtain ⟨_ | d, name⟩ := a
    · rw [Edge, mem_edges_iff] at hedge
      cases hedge
    rw [Edge, mem_edges_iff] at hedge
    obtain ⟨callee, hcallee, hb⟩ := List.mem_flatMap.mp hedge
    obtain rfl := name_of_mem_targets hb
    obtain ⟨c, g, hcontract, hmember, rfl, hl⟩ := mem_calleesAt_iff.mp hcallee
    refine ⟨d, g, ⟨⟨c, hcontract, hmember⟩, ha⟩, hl, fun halone => hother ?_⟩
    rw [halone] at hb
    exact List.mem_singleton.mp hb
  · intro h
    obtain ⟨d, g, hg, hl, hne⟩ := h
    exact mem_closure_of_leadsTo hc hg hl hne

/-- A modifier of a reached member is in the closure or bound to the start alone if the calls of
that member are known; if they are not, exactly if some reached member with call data leads to its
name in another way. -/
theorem modifier_followed_iff {modifiers : List String}
    (hc : closure? (ofContracts contracts) i f = some names)
    (hg : Reaches contracts ⟨some i, f⟩ d g) (hm : g.modifiers = some modifiers)
    (hmem : m ∈ modifiers) :
    (m ∈ names ∨ targets contracts d m = [⟨some i, f⟩]) ↔
      g.calls ≠ none ∨ targets contracts d m = [⟨some i, f⟩] ∨
        ∃ e o, Reaches contracts ⟨some i, f⟩ e o ∧ LeadsTo o m ∧
          targets contracts e m ≠ [⟨some i, f⟩] := by
  rw [mem_closure_iff_exists_leadsTo hc]
  constructor
  · intro h
    rcases h with h | h
    · exact Or.inr (Or.inr h)
    · exact Or.inr (Or.inl h)
  · intro h
    rcases h with hcalls | h | h
    · by_cases halone : targets contracts d m = [⟨some i, f⟩]
      · exact Or.inr halone
      · obtain ⟨calls, hcalls⟩ := Option.ne_none_iff_exists'.mp hcalls
        have hl : LeadsTo g m := ⟨calls, hcalls, Or.inl (by rw [hm]; exact hmem)⟩
        exact Or.inl ⟨d, g, hg, hl, halone⟩
    · exact Or.inr h
    · exact Or.inl h

/-- The calls of `_move` are not known. -/
def move : Member :=
  { name := "_move", kind := .function, visibility := .internal
    modifiers := some ["checksCanTransfer"], calls := none }

/-- A transfer is guarded against reentrance, and moves under a check that it is allowed. -/
def shielded : List Contract :=
  [{ name := "Token", kind := .contract, file := "Token.sol",
     members :=
       [{ name := "transfer", kind := .function, visibility := .public
          modifiers := some ["nonReentrant"], calls := some ["_move"] },
        move,
        { name := "checksCanTransfer", kind := .modifier, visibility := .internal,
          calls := some ["canTransfer"] }] }]

theorem closure?_shielded :
    closure? (ofContracts shielded) 0 "transfer" = some ["nonReentrant", "_move"] := by
  decide +kernel

theorem reaches_move : Reaches shielded ⟨some 0, "transfer"⟩ 0 move := by
  have hedge : Edge (ofContracts shielded).edges ⟨some 0, "transfer"⟩ ⟨some 0, "_move"⟩ := by
    unfold Edge
    decide
  exact ⟨⟨shielded[0], rfl, by decide⟩, .single hedge⟩

/-- The modifier of `_move` has been lost, and with it the check. -/
theorem modifier_lost_without_calls :
    closure? (ofContracts shielded) 0 "transfer" = some ["nonReentrant", "_move"] ∧
      Reaches shielded ⟨some 0, "transfer"⟩ 0 move ∧
      move.modifiers = some ["checksCanTransfer"] ∧
      ¬ ("checksCanTransfer" ∈ ["nonReentrant", "_move"] ∨
        targets shielded 0 "checksCanTransfer" = [⟨some 0, "transfer"⟩]) := by
  refine ⟨closure?_shielded, reaches_move, rfl, ?_⟩
  decide

/-- The modifier of `transfer` is followed, and nothing else leads to that of `_move`. -/
theorem modifier_followed_iff_shielded :
    "nonReentrant" ∈ ["nonReentrant", "_move"] ∧
      ¬ ∃ e o, Reaches shielded ⟨some 0, "transfer"⟩ e o ∧ LeadsTo o "checksCanTransfer" ∧
        targets shielded e "checksCanTransfer" ≠ [⟨some 0, "transfer"⟩] := by
  have hself : Reaches shielded ⟨some 0, "transfer"⟩ 0 (shielded[0].members[0]) :=
    ⟨⟨shielded[0], rfl, by decide⟩, .refl⟩
  have hfollowed := (modifier_followed_iff closure?_shielded hself rfl List.mem_cons_self).mpr
    (Or.inl (by decide))
  have hmove := modifier_followed_iff closure?_shielded reaches_move rfl List.mem_cons_self
  refine ⟨hfollowed.resolve_right (by decide), fun hother => ?_⟩
  have hlost := hmove.mpr (Or.inr (Or.inr hother))
  revert hlost
  decide

end TokenAudit.CallGraph
