import Mathlib.Data.List.Perm.Basic
import TokenAudit.Project.Remapping
import TokenAudit.Proofs.Sorting
import TokenAudit.Proofs.Text.Search

/-! Which remapping counts for an import path, and what a line has to say to be one. -/

namespace TokenAudit

namespace Remapping

variable {line body spec path : List Char} {q r : Remapping} {rs rs' : List Remapping}

/-- What counts of a line. A context is left out if an equals sign follows its colon. -/
inductive Body (line : List Char) : List Char → Prop
  | plain (h : ∀ context rest, line = context ++ ':' :: rest → ':' ∉ context → '=' ∉ rest) :
    Body line line
  | qualified {context body} (hline : line = context ++ ':' :: body) (hcontext : ':' ∉ context)
    (hbody : '=' ∈ body) : Body line body

/-- The line is neither blank nor a comment, and the first equals sign of its body stands between
the two parts of the remapping. -/
structure Declares (line : List Char) (r : Remapping) : Prop where
  not_blank : Text.trim line ≠ []
  not_comment : (Text.trim line).head? ≠ some '#'
  parts : ∃ start replacement, Body (Text.trim line) (start ++ '=' :: replacement) ∧
    '=' ∉ start ∧ r = ⟨Text.trim start, Text.trim replacement⟩

theorem body_iff : Body line body ↔ dropContext line = body := by
  unfold dropContext
  cases hcut : Text.cut? [':'] line with
  | none =>
    have hcolon : ':' ∉ line := by
      intro hmem
      obtain ⟨context, rest, hline⟩ := List.append_of_mem hmem
      refine Text.cut?_eq_none_iff.mp hcut ⟨context, rest, ?_⟩
      rw [hline, List.append_assoc, List.singleton_append]
    constructor
    · intro hbody
      cases hbody with
      | plain => rfl
      | qualified hline =>
        rw [hline] at hcolon
        simp at hcolon
    · intro hbody
      rw [← hbody]
      refine .plain fun context rest hline => ?_
      rw [hline] at hcolon
      simp at hcolon
  | some parts =>
    obtain ⟨context, rest⟩ := parts
    dsimp only
    have hfirst := Text.cut?_singleton_eq_some_iff.mp hcut
    have hunique {context' rest'} (hline : line = context' ++ ':' :: rest')
        (hcontext : ':' ∉ context') : rest' = rest := by
      have hcut' := Text.cut?_singleton_eq_some_iff.mpr ⟨hline, hcontext⟩
      exact (Prod.mk.inj (Option.some.inj (hcut'.symm.trans hcut))).2
    by_cases hequals : '=' ∈ rest
    · have hrest : rest.contains '=' = true := List.contains_iff_mem.mpr hequals
      rw [if_pos hrest]
      constructor
      · intro hbody
        cases hbody with
        | plain h => exact absurd hequals (h context rest hfirst.1 hfirst.2)
        | qualified hline hcontext => exact (hunique hline hcontext).symm
      · intro hbody
        rw [← hbody]
        exact .qualified hfirst.1 hfirst.2 hequals
    · have hrest : ¬ rest.contains '=' = true := fun h => hequals (List.contains_iff_mem.mp h)
      rw [if_neg hrest]
      constructor
      · intro hbody
        cases hbody with
        | plain => rfl
        | qualified hline hcontext hbody =>
          rw [hunique hline hcontext] at hbody
          exact absurd hbody hequals
      · intro hbody
        rw [← hbody]
        refine .plain fun context' rest' hline hcontext => ?_
        rwa [hunique hline hcontext]

theorem ofLine?_eq_some_iff : ofLine? line = some r ↔ Declares line r := by
  unfold ofLine?
  dsimp only
  split
  · next hskipped =>
    rw [Bool.or_eq_true, List.isEmpty_iff, beq_iff_eq] at hskipped
    refine ⟨nofun, fun h => ?_⟩
    exact (hskipped.elim h.not_blank h.not_comment).elim
  · next hkept =>
    rw [Bool.or_eq_true, List.isEmpty_iff, beq_iff_eq, not_or] at hkept
    rw [Option.map_eq_some_iff]
    constructor
    · intro hr
      obtain ⟨⟨start, replacement⟩, hcut, hparts⟩ := hr
      obtain ⟨hbody, hstart⟩ := Text.cut?_singleton_eq_some_iff.mp hcut
      exact ⟨hkept.1, hkept.2, start, replacement, body_iff.mpr hbody, hstart, hparts.symm⟩
    · intro hr
      obtain ⟨start, replacement, hbody, hstart, hparts⟩ := hr.parts
      have hcut := Text.cut?_singleton_eq_some_iff.mpr ⟨body_iff.mp hbody, hstart⟩
      exact ⟨(start, replacement), hcut, hparts.symm⟩

theorem rewrite?_eq_some_iff :
    r.rewrite? spec = some path ↔
      ∃ rest, spec = r.start ++ rest ∧ path = r.replacement ++ rest := by
  unfold rewrite?
  rw [Option.map_eq_some_iff]
  refine exists_congr fun rest => ?_
  rw [Text.dropPrefix?_eq_some_iff, eq_comm (a := path)]

theorem rewrite?_eq_none_iff : r.rewrite? spec = none ↔ ¬ r.start <+: spec := by
  unfold rewrite? Text.dropPrefix?
  rw [← List.isPrefixOf_iff_prefix]
  split <;> simp_all

/-- Among the starts of one text the longer ones have more bytes. -/
theorem size_le_iff (hq : q.start <+: spec) (hr : r.start <+: spec) :
    q.size ≤ r.size ↔ q.start.length ≤ r.start.length := by
  have hmore {q r : Remapping} (h : q.start <+: r.start) :
      q.size ≤ r.size ∧ q.start.length ≤ r.start.length ∧
        (q.size = r.size ↔ q.start.length = r.start.length) := by
    obtain ⟨rest, hrest⟩ := h
    have hbytes : r.size = q.size + (String.ofList rest).utf8ByteSize := by
      unfold size
      rw [← hrest, String.ofList_append, String.utf8ByteSize_append]
    have hlength : r.start.length = q.start.length + rest.length := by
      rw [← hrest, List.length_append]
    have hempty : (String.ofList rest).utf8ByteSize = 0 ↔ rest.length = 0 := by
      rw [String.utf8ByteSize_eq_zero_iff, String.ofList_eq_empty_iff, List.length_eq_zero_iff]
    omega
  rcases List.prefix_or_prefix_of_prefix hq hr with h | h
  · have hle := hmore h
    omega
  · have hle := hmore h
    omega

/-- Starts of one text that are of one length are the same. -/
theorem start_eq_of_length_eq (hq : q.start <+: spec) (hr : r.start <+: spec)
    (h : q.start.length = r.start.length) : q.start = r.start :=
  (List.prefix_of_prefix_length_le hq hr (Nat.le_of_eq h)).eq_of_length h

/-- `r` counts for `spec`: of all remappings with whose start it begins, `r` has the longest start,
and no earlier one has the same. -/
structure Counts (rs : List Remapping) (spec : List Char) (r : Remapping) : Prop where
  start : r.start <+: spec
  longest : ∀ q ∈ rs, q.start <+: spec → q.start.length ≤ r.start.length
  earliest : ∃ before after, rs = before ++ r :: after ∧ ∀ q ∈ before, q.start ≠ r.start

theorem isFirstLargest_iff_counts :
    IsFirstLargest size (fun q => q.start.isPrefixOf spec) rs r ↔ Counts rs spec r := by
  constructor
  · intro h
    have hstart : r.start <+: spec := List.isPrefixOf_iff_prefix.mp h.holds
    obtain ⟨before, after, hrs, hbefore⟩ := h.first
    refine ⟨hstart, fun q hq hq' => ?_, before, after, hrs, fun q hq heq => ?_⟩
    · exact (size_le_iff hq' hstart).mp (h.largest q hq (List.isPrefixOf_iff_prefix.mpr hq'))
    · have hsize : q.size = r.size := by rw [size, size, heq]
      refine hbefore q hq ?_ hsize
      rw [heq]
      exact h.holds
  · intro h
    obtain ⟨before, after, hrs, hbefore⟩ := h.earliest
    refine ⟨List.isPrefixOf_iff_prefix.mpr h.start, fun q hq hq' => ?_, before, after, hrs,
      fun q hq hq' hsize => hbefore q hq ?_⟩
    · have hq' : q.start <+: spec := List.isPrefixOf_iff_prefix.mp hq'
      exact (size_le_iff hq' h.start).mpr (h.longest q hq hq')
    · have hq' : q.start <+: spec := List.isPrefixOf_iff_prefix.mp hq'
      have hle := (size_le_iff hq' h.start).mp (by omega)
      have hge := (size_le_iff h.start hq').mp (by omega)
      exact start_eq_of_length_eq hq' h.start (by omega)

/-- With distinct starts it does not matter which remapping comes first. -/
theorem counts_iff_of_nodup (h : (rs.map (·.start)).Nodup) :
    Counts rs spec r ↔ r ∈ rs ∧ r.start <+: spec ∧
      ∀ q ∈ rs, q.start <+: spec → q.start.length ≤ r.start.length := by
  constructor
  · intro hr
    obtain ⟨before, after, hrs, -⟩ := hr.earliest
    refine ⟨?_, hr.start, hr.longest⟩
    rw [hrs]
    simp
  · intro hr
    obtain ⟨hmem, hstart, hlongest⟩ := hr
    obtain ⟨before, after, rfl⟩ := List.append_of_mem hmem
    refine ⟨hstart, hlongest, before, after, rfl, fun q hq heq => ?_⟩
    rw [List.map_append, List.map_cons, List.nodup_append] at h
    exact h.2.2 _ (List.mem_map.mpr ⟨q, hq, heq⟩) _ List.mem_cons_self rfl

theorem counts_perm (h : (rs.map (·.start)).Nodup) (hp : rs'.Perm rs) :
    Counts rs' spec r ↔ Counts rs spec r := by
  have h' : (rs'.map (·.start)).Nodup := (hp.map _).nodup_iff.mpr h
  simp only [counts_iff_of_nodup h, counts_iff_of_nodup h', hp.mem_iff]

end Remapping

namespace Remappings

open Remapping

variable {text text' : List Char} {spec path : String} {r : Remapping}

/-- The remappings that the lines of a text declare, in their order. -/
def declared (text : List Char) : List Remapping := (Text.lines text).filterMap ofLine?

theorem list_read (text : List Char) :
    (read text).list = (declared text).mergeSort (largerFirst size) := rfl

theorem findSome?_rewrite? (rs : List Remapping) (spec : List Char) :
    rs.findSome? (·.rewrite? spec) =
      (rs.find? fun r => r.start.isPrefixOf spec).bind (·.rewrite? spec) := by
  induction rs with
  | nil => rfl
  | cons r rs ih =>
    by_cases hstart : r.start <+: spec
    · have hsome : r.rewrite? spec ≠ none := fun h => rewrite?_eq_none_iff.mp h hstart
      obtain ⟨path, hpath⟩ := Option.ne_none_iff_exists'.mp hsome
      rw [List.findSome?_cons, List.find?_cons, hpath, List.isPrefixOf_iff_prefix.mpr hstart]
      exact hpath.symm
    · have hnone : r.rewrite? spec = none := rewrite?_eq_none_iff.mpr hstart
      have hother : r.start.isPrefixOf spec = false :=
        Bool.eq_false_iff.mpr fun h => hstart (List.isPrefixOf_iff_prefix.mp h)
      rw [List.findSome?_cons, List.find?_cons, hnone, hother]
      exact ih

theorem rewrite?_read_eq_some_iff :
    (read text).rewrite? spec = some path ↔
      ∃ r rest, Counts (declared text) spec.toList r ∧ spec.toList = r.start ++ rest ∧
        path.toList = r.replacement ++ rest := by
  unfold rewrite?
  rw [list_read, findSome?_rewrite?, Option.map_eq_some_iff]
  simp only [Option.bind_eq_some_iff, find?_mergeSort_eq_some_iff, isFirstLargest_iff_counts,
    Remapping.rewrite?_eq_some_iff]
  constructor
  · intro h
    obtain ⟨new, ⟨r, hcounts, rest, hspec, hnew⟩, hpath⟩ := h
    refine ⟨r, rest, hcounts, hspec, ?_⟩
    rw [← hpath, String.toList_ofList, hnew]
  · intro h
    obtain ⟨r, rest, hcounts, hspec, hpath⟩ := h
    exact ⟨path.toList, ⟨r, hcounts, rest, hspec, hpath⟩, String.ofList_toList⟩

theorem rewrite?_read_eq_none_iff :
    (read text).rewrite? spec = none ↔ ∀ r ∈ declared text, ¬ r.start <+: spec.toList := by
  unfold rewrite?
  rw [list_read, Option.map_eq_none_iff, List.findSome?_eq_none_iff]
  simp only [List.mem_mergeSort, Remapping.rewrite?_eq_none_iff]

theorem rewrite?_read_perm (h : ((declared text).map (·.start)).Nodup)
    (hp : (Text.lines text').Perm (Text.lines text)) :
    (read text').rewrite? spec = (read text).rewrite? spec := by
  have hdeclared : (declared text').Perm (declared text) := hp.filterMap _
  refine Option.ext fun path => ?_
  simp only [rewrite?_read_eq_some_iff, counts_perm h hdeclared]

/-- A path is rewritten by the remapping whose start is the longest that it begins with, the earliest
of those with one start, and by none if it begins with no start. Where all starts are distinct, the
lines may stand in any order. -/
theorem rewrite?_by_longest (text : List Char) (spec : String) :
    (∀ line r, ofLine? line = some r ↔ Declares line r) ∧
      (∀ path, (read text).rewrite? spec = some path ↔
        ∃ r rest, Counts (declared text) spec.toList r ∧ spec.toList = r.start ++ rest ∧
          path.toList = r.replacement ++ rest) ∧
      ((read text).rewrite? spec = none ↔ ∀ r ∈ declared text, ¬ r.start <+: spec.toList) ∧
      (((declared text).map (·.start)).Nodup →
        ∀ text', (Text.lines text').Perm (Text.lines text) →
          (read text').rewrite? spec = (read text).rewrite? spec) := by
  refine ⟨fun line r => ofLine?_eq_some_iff, fun path => rewrite?_read_eq_some_iff,
    rewrite?_read_eq_none_iff, fun hdistinct text' hlines => ?_⟩
  exact rewrite?_read_perm hdistinct hlines

/-- The start of the second remapping goes on after that of the first, and its line has a context. -/
def layered : List Char := "@oz/=lib/oz/\n# deps\nsrc:@oz/proxy/ = lib/proxy/\n".toList

def layeredReversed : List Char := "src:@oz/proxy/ = lib/proxy/\n# deps\n@oz/=lib/oz/".toList

theorem rewrite?_by_longest_layered :
    ((declared layered).map (·.start)).Nodup ∧
      (Text.lines layeredReversed).Perm (Text.lines layered) ∧
      (read layered).rewrite? "@oz/proxy/P.sol" = some "lib/proxy/P.sol" ∧
      (read layeredReversed).rewrite? "@oz/proxy/P.sol" = some "lib/proxy/P.sol" := by
  have hdeclared : declared layered =
      [⟨"@oz/".toList, "lib/oz/".toList⟩, ⟨"@oz/proxy/".toList, "lib/proxy/".toList⟩] := by
    decide +kernel
  have hdistinct : ((declared layered).map (·.start)).Nodup := by
    rw [hdeclared]
    decide
  have hlines : (Text.lines layeredReversed).Perm (Text.lines layered) := by decide +kernel
  obtain ⟨-, hsome, -, hperm⟩ := rewrite?_by_longest layered "@oz/proxy/P.sol"
  have hcounts : Counts (declared layered) "@oz/proxy/P.sol".toList
      ⟨"@oz/proxy/".toList, "lib/proxy/".toList⟩ := by
    rw [hdeclared, counts_iff_of_nodup (by decide)]
    refine ⟨by simp, ⟨"P.sol".toList, by decide⟩, fun q hq _ => ?_⟩
    rcases List.mem_pair.mp hq with rfl | rfl <;> decide
  have hpath := (hsome "lib/proxy/P.sol").mpr ⟨_, "P.sol".toList, hcounts, by decide, by decide⟩
  exact ⟨hdistinct, hlines, hpath, (hperm hdistinct _ hlines).trans hpath⟩

/-- Of two lines with one start the first counts. -/
example : (read "a=b\na=c".toList).rewrite? "a/x" = some "b/x" := by cbv

end Remappings

end TokenAudit
