import TokenAudit.Proofs.Lists
import TokenAudit.Solidity.Outline

/-! The names that a phrase calls. They are collected on the way through its tree, and are the same
as those of all its calls in preorder, each taken where it comes first. -/

namespace TokenAudit.Solidity

variable {p q : Phrase} {ps parts : List Phrase} {names : List String} {name : String}

/-- Induction on phrases: what passes from the parts of a phrase to the phrase holds of all. -/
theorem Phrase.induction {motive : Phrase → Prop}
    (leaf : ∀ field named t, motive (.leaf field named t))
    (node : ∀ kind field parts, (∀ q ∈ parts, motive q) → motive (.node kind field parts))
    (p : Phrase) : motive p := by
  have hnil : ∀ q ∈ ([] : List Phrase), motive q := fun q hq => absurd hq List.not_mem_nil
  have hcons (q : Phrase) (qs : List Phrase) (hq : motive q) (hqs : ∀ r ∈ qs, motive r) :
      ∀ r ∈ q :: qs, motive r := List.forall_mem_cons.mpr ⟨hq, hqs⟩
  exact @Phrase.rec motive (fun ps => ∀ q ∈ ps, motive q) leaf node hnil hcons p

mutual

/-- The phrase and all phrases in it, each in front of those that it holds. -/
def Phrase.preorder : Phrase → List Phrase
  | .leaf field named t => [.leaf field named t]
  | .node kind field parts => .node kind field parts :: preorderOf parts

def preorderOf : List Phrase → List Phrase
  | [] => []
  | p :: ps => p.preorder ++ preorderOf ps

end

namespace Phrase

/-- `q` is `p` or stands somewhere in it. -/
inductive Occurs (q : Phrase) : Phrase → Prop
  | self : Occurs q q
  | part {r kind field parts} (hr : r ∈ parts) (h : Occurs q r) : Occurs q (.node kind field parts)

/-- The phrase fills the field `name` of the node around it. -/
inductive InField (name : String) : Phrase → Prop
  | leaf {named t} : InField name (.leaf (some name) named t)
  | node {kind parts} : InField name (.node kind (some name) parts)

/-- Only tokens can be without a name. -/
inductive HasName : Phrase → Prop
  | leaf {field t} : HasName (.leaf field true t)
  | node {kind field parts} : HasName (.node kind field parts)

/-- A call with the given parts is one of `callee`: its first part in the field `function`, or the
first that has a name if no part is in that field. -/
inductive CalleeOf (callee : Phrase) (parts : List Phrase) : Prop
  | inField {before after} (hparts : parts = before ++ callee :: after)
      (hfield : InField "function" callee)
      (hfirst : ∀ q ∈ before, ¬ InField "function" q) : CalleeOf callee parts
  | named {before after} (hparts : parts = before ++ callee :: after)
      (hnamed : HasName callee) (hfirst : ∀ q ∈ before, ¬ HasName q)
      (hnone : ∀ q ∈ parts, ¬ InField "function" q) : CalleeOf callee parts

/-- The phrase is a call of something whose text has `name` as its simple name. -/
def Calls (p : Phrase) (name : String) : Prop :=
  ∃ field parts callee, p = .node "call_expression" field parts ∧ CalleeOf callee parts ∧
    simpleName? callee.spelling = some name.toList

end Phrase

/-- The names that the phrases call, one after another; a phrase that calls none is passed over. -/
inductive NamesCalled : List Phrase → List String → Prop
  | nil : NamesCalled [] []
  | call {p : Phrase} {ps : List Phrase} {name : String} {called : List String}
      (hp : p.Calls name) (h : NamesCalled ps called) : NamesCalled (p :: ps) (name :: called)
  | other {p : Phrase} {ps : List Phrase} {called : List String}
      (hp : ∀ name, ¬ p.Calls name) (h : NamesCalled ps called) : NamesCalled (p :: ps) called

theorem preorderOf_eq_flatMap (ps : List Phrase) : preorderOf ps = ps.flatMap Phrase.preorder := by
  induction ps with
  | nil => rfl
  | cons p ps ih => rw [preorderOf, ih, List.flatMap_cons]

namespace Phrase

theorem mem_preorder_iff : q ∈ p.preorder ↔ Occurs q p := by
  induction p using induction with
  | leaf field named t =>
    rw [preorder, List.mem_singleton]
    constructor
    · intro h
      rw [h]
      exact .self
    · intro h
      cases h
      rfl
  | node kind field parts ih =>
    rw [preorder, List.mem_cons, preorderOf_eq_flatMap, List.mem_flatMap]
    constructor
    · intro h
      rcases h with h | ⟨r, hr, hq⟩
      · rw [h]
        exact .self
      · exact .part hr ((ih r hr).mp hq)
    · intro h
      cases h with
      | self => exact Or.inl rfl
      | part hr hq => exact Or.inr ⟨_, hr, (ih _ hr).mpr hq⟩

theorem field_eq_some_iff : p.field = some name ↔ InField name p := by
  constructor
  · intro h
    cases p with
    | leaf field named t =>
      have hfield : field = some name := h
      rw [hfield]
      exact .leaf
    | node kind field parts =>
      have hfield : field = some name := h
      rw [hfield]
      exact .node
  · intro h
    cases h with
    | leaf => rfl
    | node => rfl

theorem isNamed_iff : p.isNamed = true ↔ HasName p := by
  constructor
  · intro h
    cases p with
    | leaf field named t =>
      have hnamed : named = true := h
      rw [hnamed]
      exact .leaf
    | node => exact .node
  · intro h
    cases h with
    | leaf => rfl
    | node => rfl

theorem callee?_eq_some_iff {callee : Phrase} :
    callee? parts = some callee ↔ CalleeOf callee parts := by
  have hsearch : callee? parts = some callee ↔
      parts.find? (·.field == some "function") = some callee ∨
        parts.find? (·.field == some "function") = none ∧
          parts.find? isNamed = some callee := by
    unfold callee? calleeField
    cases parts.find? (·.field == some "function") <;> simp
  rw [hsearch, List.find?_eq_some_iff_append, List.find?_eq_some_iff_append, List.find?_eq_none]
  simp only [Bool.not_eq_true', ← Bool.not_eq_true, beq_iff_eq, field_eq_some_iff, isNamed_iff]
  constructor
  · intro h
    rcases h with ⟨hfield, before, after, hparts, hfirst⟩ |
      ⟨hnone, hnamed, before, after, hparts, hfirst⟩
    · exact .inField hparts hfield hfirst
    · exact .named hparts hnamed hfirst hnone
  · intro h
    cases h with
    | inField hparts hfield hfirst => exact Or.inl ⟨hfield, _, _, hparts, hfirst⟩
    | named hparts hnamed hfirst hnone => exact Or.inr ⟨hnone, hnamed, _, _, hparts, hfirst⟩

theorem calledName?_eq_some_iff {kind : String} :
    calledName? kind parts = some name ↔ kind = "call_expression" ∧
      ∃ callee, CalleeOf callee parts ∧ simpleName? callee.spelling = some name.toList := by
  have htext (callee : Phrase) : (simpleName? callee.spelling).map String.ofList = some name ↔
      simpleName? callee.spelling = some name.toList := by
    rw [Option.map_eq_some_iff]
    constructor
    · intro h
      obtain ⟨cs, hcs, hname⟩ := h
      rw [hcs, ← hname, String.toList_ofList]
    · intro h
      exact ⟨name.toList, h, String.ofList_toList⟩
  unfold calledName? callKind
  split_ifs with hkind
  · rw [Option.bind_eq_some_iff]
    simp only [callee?_eq_some_iff, htext, beq_iff_eq.mp hkind, true_and]
  · constructor
    · intro h
      cases h
    · intro h
      exact absurd (beq_iff_eq.mpr h.1) hkind

/-- The name that a phrase calls if it is a call. -/
def nameCalled? : Phrase → Option String
  | leaf .. => none
  | node kind _ parts => calledName? kind parts

theorem nameCalled?_eq_some_iff : p.nameCalled? = some name ↔ p.Calls name := by
  constructor
  · intro h
    cases p with
    | leaf => cases h
    | node kind field parts =>
      obtain ⟨hkind, callee, hcallee, hname⟩ := calledName?_eq_some_iff.mp h
      refine ⟨field, parts, callee, ?_, hcallee, hname⟩
      rw [hkind]
  · intro h
    obtain ⟨field, parts, callee, hp, hcallee, hname⟩ := h
    rw [hp]
    exact calledName?_eq_some_iff.mpr ⟨rfl, callee, hcallee, hname⟩

end Phrase

/-- The names that phrases call are found one by one. -/
theorem namesCalled_iff {called : List String} :
    NamesCalled ps called ↔ called = ps.filterMap Phrase.nameCalled? := by
  constructor
  · intro h
    induction h with
    | nil => rfl
    | call hp _ ih => rw [List.filterMap_cons, Phrase.nameCalled?_eq_some_iff.mpr hp, ih]
    | @other p ps called hp _ ih =>
      have hnone : p.nameCalled? = none :=
        Option.eq_none_iff_forall_ne_some.mpr fun n hn => hp n (Phrase.nameCalled?_eq_some_iff.mp hn)
      rw [List.filterMap_cons, hnone, ih]
  · intro h
    rw [h]
    clear h
    induction ps with
    | nil => exact .nil
    | cons p ps ih =>
      rw [List.filterMap_cons]
      cases hname : p.nameCalled? with
      | none =>
        refine .other (fun name hcalls => ?_) ih
        rw [Phrase.nameCalled?_eq_some_iff.mpr hcalls] at hname
        cases hname
      | some name => exact .call (Phrase.nameCalled?_eq_some_iff.mp hname) ih

/-- The names with those of `more` added that are new, each once. -/
def extend (names more : List String) : List String :=
  names ++ (more.filter (· ∉ names)).eraseDups

theorem extend_nil (names : List String) : extend names [] = names := List.append_nil names

theorem extend_cons_of_mem {more : List String} (h : name ∈ names) :
    extend names (name :: more) = extend names more := by
  simp [extend, h]

theorem extend_cons_of_not_mem {more : List String} (h : name ∉ names) :
    extend names (name :: more) = extend (names ++ [name]) more := by
  have hrest : ((more.filter (· ∉ names)).filter fun n => !n == name) =
      more.filter (· ∉ names ++ [name]) := by
    rw [List.filter_filter]
    refine List.filter_congr fun n _ => ?_
    by_cases hn : n = name <;> simp [hn]
  unfold extend
  rw [List.filter_cons_of_pos (by simpa using h), List.eraseDups_cons, hrest, List.append_assoc,
    List.singleton_append]

theorem extend_append (names more more' : List String) :
    extend names (more ++ more') = extend (extend names more) more' := by
  induction more generalizing names with
  | nil => rw [List.nil_append, extend_nil]
  | cons name more ih =>
    rw [List.cons_append]
    by_cases hname : name ∈ names
    · rw [extend_cons_of_mem hname, extend_cons_of_mem hname, ih]
    · rw [extend_cons_of_not_mem hname, extend_cons_of_not_mem hname, ih]

theorem addName_eq_extend (names : List String) (called : Option String) :
    addName names called = extend names called.toList := by
  cases called with
  | none => exact (extend_nil names).symm
  | some name =>
    rw [Option.toList_some]
    dsimp only [addName]
    by_cases hname : name ∈ names
    · rw [if_pos hname, extend_cons_of_mem hname, extend_nil]
    · rw [if_neg hname, extend_cons_of_not_mem hname, extend_nil]

theorem mem_extend_iff {more : List String} :
    name ∈ extend names more ↔ name ∈ names ∨ name ∈ more := by
  unfold extend
  by_cases hname : name ∈ names <;> simp [hname]

theorem nodup_extend (hnames : names.Nodup) (more : List String) : (extend names more).Nodup := by
  unfold extend
  rw [List.nodup_append]
  refine ⟨hnames, nodup_eraseDups _, fun n hn m hm heq => ?_⟩
  have hkept := (List.mem_filter.mp (List.mem_eraseDups.mp hm)).2
  have hnew : m ∉ names := by simpa using hkept
  rw [heq] at hn
  exact hnew hn

/-- On its way through the parts the collection adds the calls of one part after another. -/
theorem collectCallsOf_of_parts
    (h : ∀ q ∈ ps, ∀ names,
      q.collectCalls names = extend names (q.preorder.filterMap Phrase.nameCalled?))
    (names : List String) :
    collectCallsOf names ps = extend names ((preorderOf ps).filterMap Phrase.nameCalled?) := by
  induction ps generalizing names with
  | nil => exact (extend_nil names).symm
  | cons p ps ih =>
    obtain ⟨hp, hps⟩ := List.forall_mem_cons.mp h
    have hvisit : (if p.isNamed then p.collectCalls names else names) = p.collectCalls names := by
      -- A phrase without a name is a leaf, so nothing is missed where it is passed over.
      cases p with
      | leaf field named t => exact ite_self names
      | node => rfl
    rw [collectCallsOf, hvisit, hp, ih hps, preorderOf, List.filterMap_append, extend_append]

/-- The induction is on the tree: a call adds its own name first, and then what its parts add. -/
theorem Phrase.collectCalls_eq_extend (names : List String) (p : Phrase) :
    p.collectCalls names = extend names (p.preorder.filterMap nameCalled?) := by
  induction p using Phrase.induction generalizing names with
  | leaf field named t => exact (extend_nil names).symm
  | node kind field parts ih =>
    have hown : (node kind field parts).preorder.filterMap nameCalled? =
        (calledName? kind parts).toList ++ (preorderOf parts).filterMap nameCalled? := by
      rw [preorder, List.filterMap_cons, nameCalled?]
      cases calledName? kind parts <;> rfl
    rw [collectCalls, collectCallsOf_of_parts ih, addName_eq_extend, hown, extend_append]

theorem collectCallsOf_eq_extend (names : List String) (ps : List Phrase) :
    collectCallsOf names ps = extend names ((preorderOf ps).filterMap Phrase.nameCalled?) :=
  collectCallsOf_of_parts (fun q _ names => q.collectCalls_eq_extend names) names

/-- The calls of a member are the names called in its body, each once in the order in which they
come first. -/
theorem calls_of_member? {file : String} {holder : ContractKind} {item : List Nest} {m : Member}
    (h : member? file holder item = some m) :
    ∃ kind name rest called, memberHead? item = some (kind, name, rest) ∧
      NamesCalled (preorderOf (Phrase.ofNests ((Header.read rest).body.getD []))) called ∧
      m.calls = some called.eraseDups := by
  unfold member? at h
  simp only [Option.bind_eq_bind, Option.bind_eq_some_iff] at h
  obtain ⟨⟨kind, name, rest⟩, hhead, first, -, hm⟩ := h
  refine ⟨kind, name, rest, _, hhead, namesCalled_iff.mpr rfl, ?_⟩
  rw [← Option.some.inj hm, collectCallsOf_eq_extend]
  simp [extend]

/-- Collecting the calls of a phrase adds to `names` exactly the simple names of what is called in
it that are new, in the order in which the calls come first in preorder. -/
theorem collectCalls_adds_called (hnames : names.Nodup) (p : Phrase) :
    ∃ called, (∀ other, NamesCalled p.preorder other ↔ other = called) ∧
      p.collectCalls names = names ++ (called.filter (· ∉ names)).eraseDups ∧
      names <+: p.collectCalls names ∧ (p.collectCalls names).Nodup ∧
      ∀ name, name ∈ p.collectCalls names ↔
        name ∈ names ∨ ∃ q, Phrase.Occurs q p ∧ q.Calls name := by
  have hextend := p.collectCalls_eq_extend names
  refine ⟨_, fun other => namesCalled_iff, hextend, ?_, ?_, fun name => ?_⟩
  · rw [hextend]
    exact List.prefix_append _ _
  · rw [hextend]
    exact nodup_extend hnames _
  · rw [hextend, mem_extend_iff, List.mem_filterMap]
    simp only [Phrase.mem_preorder_iff, Phrase.nameCalled?_eq_some_iff]

def wordPhrase (text : String) : Phrase :=
  .ofToken { before := [], text := text.toList, kind := .word, row := 0 }

def markPhrase (text : String) : Phrase :=
  .ofToken { before := [], text := text.toList, kind := .mark, row := 0 }

/-- `settle(ledger.move(x), (hook)(log()))`, where the call of `(hook)` has no name, that of `log`
does not mark its callee, and a call of nothing follows. -/
def nestedCalls : Phrase :=
  .call (wordPhrase "settle")
    [.call (.group [wordPhrase "ledger", markPhrase ".", wordPhrase "move"]) [wordPhrase "x"],
      .call (.group [markPhrase "(", wordPhrase "hook", markPhrase ")"])
        [.node "call_expression" none [wordPhrase "log", markPhrase "(", markPhrase ")"]],
      .node "call_expression" none [markPhrase "(", markPhrase ")"]]

theorem collectCalls_adds_called_nested :
    ["move"].Nodup ∧ nestedCalls.collectCalls ["move"] = ["move", "settle", "log"] ∧
      (nestedCalls.collectCalls ["move"]).Nodup := by
  have hnames : ["move"].Nodup := by decide
  have hcalled : NamesCalled nestedCalls.preorder ["settle", "move", "log"] :=
    namesCalled_iff.mpr (by decide +kernel)
  obtain ⟨called, hunique, hadds, -, hnodup, -⟩ := collectCalls_adds_called hnames nestedCalls
  rw [← (hunique _).mp hcalled] at hadds
  exact ⟨hnames, hadds.trans (by decide), hnodup⟩

end TokenAudit.Solidity
