import Mathlib.Data.List.Basic
import Mathlib.Tactic.ByContra
import TokenAudit.Files.Path

/-! Paths of what lies below a directory: their parts, their components and their order. -/

namespace TokenAudit

/-- What an entry of a directory can be called. -/
structure IsName (s : String) : Prop where
  ne_empty : s.toList ≠ []
  ne_here : s.toList ≠ ['.']
  ne_parent : s.toList ≠ ['.', '.']
  no_separator : '/' ∉ s.toList

theorem isName_iff {s : String} :
    IsName s ↔ s.toList ≠ [] ∧ s.toList ≠ ['.'] ∧ s.toList ≠ ['.', '.'] ∧ '/' ∉ s.toList :=
  ⟨fun h => ⟨h.1, h.2, h.3, h.4⟩, fun ⟨h₁, h₂, h₃, h₄⟩ => ⟨h₁, h₂, h₃, h₄⟩⟩

instance (s : String) : Decidable (IsName s) := decidable_of_iff _ isName_iff.symm

namespace Path

variable {p : Path} {name : String} {cs : List Char}

/-- The path of the entry that the names lead to from `p`. -/
def below (p : Path) (names : List String) : Path := names.foldl child p

/-- What `child` puts between a path and a name. -/
def separator (cs : List Char) : List Char :=
  if cs.isEmpty || cs.getLast? == some '/' then [] else ['/']

theorem parts_ne_nil (cs : List Char) : parts cs ≠ [] := by
  fun_cases parts cs <;> simp_all

theorem parts_cons_of_ne {c : Char} (hc : c ≠ '/') {q : List Char} {qs : List (List Char)}
    (h : parts cs = q :: qs) : parts (c :: cs) = (c :: q) :: qs := by
  rw [parts]
  · rw [h]
  · exact hc

theorem parts_append (cs ds : List Char) : parts (cs ++ '/' :: ds) = parts cs ++ parts ds := by
  induction cs with
  | nil => simp [parts]
  | cons c cs ih =>
    by_cases hc : c = '/'
    · subst hc
      simp [parts, ih]
    · obtain ⟨q, qs, hq⟩ := List.exists_cons_of_ne_nil (parts_ne_nil cs)
      rw [List.cons_append, parts_cons_of_ne hc hq, parts_cons_of_ne hc (ih.trans (by rw [hq]; rfl))]
      rfl

theorem parts_of_no_separator (h : '/' ∉ cs) : parts cs = [cs] := by
  induction cs with
  | nil => rfl
  | cons c cs ih =>
    rw [List.mem_cons, not_or] at h
    exact parts_cons_of_ne (Ne.symm h.1) (ih h.2)

theorem no_separator_of_mem_parts {q : List Char} (hq : q ∈ parts cs) : '/' ∉ q := by
  induction cs generalizing q with
  | nil =>
    obtain rfl : q = [] := by simpa [parts] using hq
    simp
  | cons c cs ih =>
    by_cases hc : c = '/'
    · subst hc
      rcases List.mem_cons.mp hq with rfl | hq
      · simp
      · exact ih hq
    · obtain ⟨r, rs, hr⟩ := List.exists_cons_of_ne_nil (parts_ne_nil cs)
      rw [hr] at ih
      rw [parts_cons_of_ne hc hr] at hq
      rcases List.mem_cons.mp hq with rfl | hq
      · have hr' : '/' ∉ r := ih List.mem_cons_self
        simp [hr', Ne.symm hc]
      · exact ih (List.mem_cons_of_mem _ hq)

theorem toList_join {q : Path} (hq : q.isAbsolute = false) (p : Path) :
    (p.join q).text.toList = p.text.toList ++ separator p.text.toList ++ q.text.toList := by
  have hempty : p.text.isEmpty = p.text.toList.isEmpty := by
    rw [Bool.eq_iff_iff, String.isEmpty_iff, List.isEmpty_iff, String.toList_eq_nil_iff]
  unfold join separator
  rw [hq, hempty, if_neg Bool.false_ne_true]
  split_ifs <;> simp

theorem toList_child (hn : IsName name) (p : Path) :
    (p.child name).text.toList = p.text.toList ++ separator p.text.toList ++ name.toList := by
  have hrel : isAbsolute ⟨name⟩ = false := by
    have hhead : name.toList.head? ≠ some '/' := fun h => hn.no_separator (List.mem_of_head? h)
    simpa [isAbsolute] using hhead
  exact toList_join hrel p

/-- A name becomes the last part, in the place of an empty one if the text ends in a separator. -/
theorem exists_parts_append {n : List Char} (hn : '/' ∉ n) (cs : List Char) :
    ∃ front, (parts cs = front ∨ parts cs = front ++ [[]]) ∧
      parts (cs ++ separator cs ++ n) = front ++ [n] := by
  have hparts := parts_of_no_separator hn
  rcases List.eq_nil_or_concat' cs with rfl | ⟨r, c, rfl⟩
  · exact ⟨[], Or.inr rfl, by simpa [separator] using hparts⟩
  by_cases hc : c = '/'
  · subst hc
    refine ⟨parts r, Or.inr (parts_append r []), ?_⟩
    have htext : r ++ ['/'] ++ separator (r ++ ['/']) ++ n = r ++ '/' :: n := by simp [separator]
    rw [htext, parts_append, hparts]
  · refine ⟨parts (r ++ [c]), Or.inl rfl, ?_⟩
    have htext : r ++ [c] ++ separator (r ++ [c]) ++ n = (r ++ [c]) ++ '/' :: n := by
      simp [separator, hc]
    rw [htext, parts_append, hparts]

theorem ofParts_append (ps qs : List (List Char)) : ofParts (ps ++ qs) = ofParts ps ++ ofParts qs :=
  List.filterMap_append

theorem ofParts_name (hn : IsName name) : ofParts [name.toList] = [.name name] := by
  simp [ofParts, hn.ne_empty, hn.ne_here, hn.ne_parent]

theorem ofParts_parts_append (hn : IsName name) (cs : List Char) :
    ofParts (parts (cs ++ separator cs ++ name.toList)) = ofParts (parts cs) ++ [.name name] := by
  obtain ⟨front, hfront, hparts⟩ := exists_parts_append hn.no_separator cs
  rw [hparts, ofParts_append, ofParts_name hn]
  rcases hfront with h | h
  · rw [h]
  · have hblank : ofParts [[]] = [] := rfl
    rw [h, ofParts_append, hblank, List.append_nil]

/-- The text starts neither with a separator nor with a `.` part. -/
structure Tight (cs : List Char) : Prop where
  ne_here : cs ≠ ['.']
  ne_separator : ∀ r, cs ≠ '/' :: r
  ne_skipped : ∀ r, cs ≠ '.' :: '/' :: r

theorem Tight.lead (h : Tight cs) : Path.lead cs = ([], cs) := by
  fun_cases Path.lead cs with
  | case1 r => exact absurd rfl (h.ne_separator r)
  | case2 => exact absurd rfl h.ne_here
  | case3 r => exact absurd rfl (h.ne_skipped r)
  | case4 => rfl

theorem tight_nil : Tight [] := ⟨nofun, nofun, nofun⟩

/-- What starts with a name, or with a name read backwards, is tight. -/
theorem tight_append {n : List Char} (hne : n ≠ []) (hhere : n ≠ ['.']) (hsep : '/' ∉ n)
    (cs : List Char) : Tight (n ++ cs) := by
  obtain ⟨c, n, rfl⟩ := List.exists_cons_of_ne_nil hne
  have hc : c ≠ '/' := fun h => hsep (h ▸ List.mem_cons_self)
  simp only [List.cons_append]
  refine ⟨fun h => ?_, fun r h => hc (List.cons.inj h).1, fun r h => ?_⟩
  · simp only [List.cons.injEq, List.append_eq_nil_iff] at h
    obtain ⟨rfl, rfl, -⟩ := h
    exact hhere rfl
  · cases n with
    | nil =>
      simp only [List.cons.injEq] at h
      exact hhere (by rw [h.1])
    | cons d n =>
      simp only [List.cons_append, List.cons.injEq] at h
      exact hsep (by simp [h.2.1])

theorem Tight.append {r : List Char} (h : Tight cs) (hr : Tight r) :
    Tight (cs ++ separator cs ++ r) := by
  have hhere := h.ne_here
  have hseparator := h.ne_separator
  have hskipped := h.ne_skipped
  rcases cs with _ | ⟨c, _ | ⟨d, cs⟩⟩
  · exact hr
  · refine ⟨?_, fun x => ?_, fun x => ?_⟩ <;> simp_all
  · refine ⟨?_, fun x => ?_, fun x => ?_⟩ <;> simp_all

theorem tight_name (hn : IsName name) : Tight name.toList := by
  simpa using tight_append hn.ne_empty hn.ne_here hn.no_separator []

theorem components_child (hn : IsName name) (p : Path) :
    (p.child name).components = p.components ++ [.name name] := by
  have hbody := ofParts_parts_append hn
  unfold components
  rw [toList_child hn]
  generalize p.text.toList = cs
  fun_cases lead cs with
  | case1 r =>
    have htext : '/' :: r ++ separator ('/' :: r) ++ name.toList =
        '/' :: (r ++ separator r ++ name.toList) := by
      cases r <;> simp [separator]
    rw [htext]
    simp only [lead]
    rw [hbody, List.append_assoc]
  | case2 =>
    have htext : ['.'] ++ separator ['.'] ++ name.toList = '.' :: '/' :: name.toList := rfl
    have hparts : parts ('/' :: name.toList) = [[]] ++ [name.toList] := by
      rw [parts, parts_of_no_separator hn.no_separator]
      rfl
    have hblank : ofParts [[]] = [] := rfl
    rw [htext]
    simp only [lead]
    rw [hparts, ofParts_append, ofParts_name hn, hblank]
    rfl
  | case3 r =>
    have htext : '.' :: '/' :: r ++ separator ('.' :: '/' :: r) ++ name.toList =
        '.' :: '/' :: (r ++ separator ('/' :: r) ++ name.toList) := by
      simp [separator]
    have hrest := hbody ('/' :: r)
    rw [htext]
    simp only [lead]
    rw [List.append_assoc (leadComponents _), ← hrest]
    rfl
  | case4 _ hroot hhere hstart =>
    have htight : Tight cs := ⟨hhere, hroot, hstart⟩
    rw [(htight.append (tight_name hn)).lead]
    dsimp only
    rw [hbody, List.append_assoc]

theorem components_below {names : List String} (hn : ∀ n ∈ names, IsName n) (p : Path) :
    (p.below names).components = p.components ++ names.map .name := by
  induction names generalizing p with
  | nil => simp [below]
  | cons n names ih =>
    obtain ⟨hname, hrest⟩ := List.forall_mem_cons.mp hn
    have hbelow : p.below (n :: names) = (p.child n).below names := rfl
    rw [hbelow, ih hrest, components_child hname]
    simp

/-- The parts of a path below another, up to an empty one between the two. -/
theorem exists_parts_below {names : List String} (hn : ∀ n ∈ names, IsName n)
    (hne : names ≠ []) (p : Path) :
    ∃ front, (parts p.text.toList = front ∨ parts p.text.toList = front ++ [[]]) ∧
      parts (p.below names).text.toList = front ++ names.map String.toList := by
  induction names generalizing p with
  | nil => exact absurd rfl hne
  | cons n names ih =>
    obtain ⟨hname, hrest⟩ := List.forall_mem_cons.mp hn
    obtain ⟨front, hfront, hchild⟩ := exists_parts_append hname.no_separator p.text.toList
    rw [← toList_child hname] at hchild
    refine ⟨front, hfront, ?_⟩
    have hbelow : p.below (n :: names) = (p.child n).below names := rfl
    rw [hbelow]
    by_cases hnil : names = []
    · subst hnil
      exact hchild
    · obtain ⟨front', hfront', hparts⟩ := ih hrest hnil (p.child n)
      have hfull : front' = front ++ [n.toList] := by
        rcases hfront' with h | h
        · rw [← h, hchild]
        · -- The last part is a name, which is not empty.
          rw [h] at hchild
          have hlast : ([] : List Char) = n.toList := by simpa using congrArg List.getLast? hchild
          exact absurd hlast.symm hname.ne_empty
      rw [hparts, hfull]
      simp

theorem isAbsolute_below {names : List String} (hn : ∀ n ∈ names, IsName n) {p : Path}
    (hp : p.text.toList ≠ []) : (p.below names).isAbsolute = p.isAbsolute := by
  induction names generalizing p with
  | nil => rfl
  | cons n names ih =>
    obtain ⟨hname, hrest⟩ := List.forall_mem_cons.mp hn
    have hbelow : p.below (n :: names) = (p.child n).below names := rfl
    have hchild := toList_child hname p
    rw [hbelow, ih hrest (by simp [hchild, hp]), isAbsolute, isAbsolute, hchild]
    obtain ⟨c, r, hc⟩ := List.exists_cons_of_ne_nil hp
    simp [hc]

/-- A source is called by some text and `.sol`. -/
theorem isSolidity_child_iff (hn : IsName name) (p : Path) :
    (p.child name).isSolidity = true ↔
      ∃ stem : List Char, stem ≠ [] ∧ name.toList = stem ++ ".sol".toList := by
  have hname : (p.child name).fileName? = some name := by
    simp [fileName?, components_child hn]
  have hext : (p.child name).extension? =
      (let tail := name.toList.reverse.takeWhile (· != '.')
        if tail.length + 1 < name.toList.length then some tail.reverse else none) := by
    simp [extension?, hname]
  rw [isSolidity, hext, beq_iff_eq]
  constructor
  · intro h
    dsimp only at h
    split_ifs at h with hlength
    have htail : name.toList.reverse.takeWhile (· != '.') = ['l', 'o', 's'] := by
      have hsol := congrArg List.reverse (Option.some.inj h)
      simpa using hsol
    rw [htail] at hlength
    have hsplit := List.takeWhile_append_dropWhile (p := (· != '.')) (l := name.toList.reverse)
    have hpoint := List.head?_dropWhile_not (· != '.') name.toList.reverse
    rw [htail] at hsplit
    cases hdrop : name.toList.reverse.dropWhile (· != '.') with
    | nil =>
      have hthree : name.toList.length = 3 := by
        simpa [hdrop] using (congrArg List.length hsplit).symm
      simp [hthree] at hlength
    | cons c rest =>
      obtain rfl : c = '.' := by simpa [hdrop] using hpoint
      have htext : name.toList = rest.reverse ++ ".sol".toList := by
        rw [hdrop] at hsplit
        simpa using (congrArg List.reverse hsplit).symm
      refine ⟨rest.reverse, ?_, htext⟩
      intro hnil
      simp [htext, hnil] at hlength
  · intro h
    obtain ⟨stem, hstem, htext⟩ := h
    have hlength : 0 < stem.length := List.length_pos_iff.mpr hstem
    simp [htext, hlength]

/-- `p` comes before `q` in the order by components. -/
def Before (p q : Path) : Prop := compareComponents p.components q.components = .lt

theorem compare_self (a : PathComponent) : a.compare a = .eq := by
  cases a <;> simp [PathComponent.compare, PathComponent.rank, compareOfLessAndEq, Ord.compare]

theorem compareComponents_append (cs as bs : List PathComponent) :
    compareComponents (cs ++ as) (cs ++ bs) = compareComponents as bs := by
  induction cs with
  | nil => rfl
  | cons c cs ih => simp [compareComponents, compare_self, ih]

theorem not_before_self (p : Path) : ¬ p.Before p := by
  have hself := compareComponents_append p.components [] []
  rw [List.append_nil] at hself
  rw [Before, hself]
  exact nofun

theorem before_of_lt {m n : String} (hm : IsName m) (hn : IsName n) (hlt : m < n)
    {ms ns : List String} (hms : ∀ x ∈ ms, IsName x) (hns : ∀ x ∈ ns, IsName x) (p : Path) :
    (p.below (m :: ms)).Before (p.below (n :: ns)) := by
  rw [Before, components_below (List.forall_mem_cons.mpr ⟨hm, hms⟩),
    components_below (List.forall_mem_cons.mpr ⟨hn, hns⟩), compareComponents_append]
  simp [compareComponents, PathComponent.compare, hlt]

end Path

end TokenAudit
