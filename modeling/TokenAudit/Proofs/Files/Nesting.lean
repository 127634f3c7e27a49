import TokenAudit.Files.Glob

/-! Patterns can nest deeper than a matcher allows. -/

namespace TokenAudit.Glob

variable {n : Nat} {rule : BracketRule} {groups : List OpenGroup} {previous : Option Char}

/-- A letter in braces, one pair around the other. -/
def nested (n : Nat) : String :=
  String.ofList (List.replicate n '\x7b' ++ 'x' :: List.replicate n '\x7d')

/-- What a letter in braces is read as. -/
def nest : Nat → GlobToken
  | 0 => .byte 0x78
  | n + 1 => .alternatives [[nest n]]

theorem readFrom_replicate_open (n : Nat) (cs : List Char) : ∃ last,
    readFrom rule { groups, tokens := [], previous } (List.replicate n '\x7b' ++ cs) =
      readFrom rule { groups := List.replicate n ⟨[], []⟩ ++ groups, tokens := [], previous := last }
        cs := by
  induction n generalizing groups previous with
  | zero => exact ⟨previous, rfl⟩
  | succ n ih =>
    obtain ⟨last, hlast⟩ := @ih (⟨[], []⟩ :: groups) (some '\x7b')
    refine ⟨last, ?_⟩
    rw [List.replicate_succ, List.cons_append, readFrom, hlast, List.replicate_succ',
      List.append_assoc]
    rfl

theorem readFrom_replicate_close (n k : Nat) : ∃ last,
    readFrom rule { groups := List.replicate n ⟨[], []⟩, tokens := [nest k], previous }
        (List.replicate n '\x7d') =
      .ok { groups := [], tokens := [nest (k + n)], previous := last } := by
  induction n generalizing k previous with
  | zero =>
    refine ⟨previous, ?_⟩
    simp only [List.replicate_zero, readFrom, Nat.add_zero]
  | succ n ih =>
    obtain ⟨last, hlast⟩ := @ih (some '\x7d') (k + 1)
    refine ⟨last, ?_⟩
    rw [List.replicate_succ, List.replicate_succ, readFrom]
    have hdepth : k + (n + 1) = k + 1 + n := by omega
    rw [hdepth, ← hlast]
    rfl

theorem read_nested (keepsSeparators : Bool) (n : Nat) :
    read rule keepsSeparators (nested n).toList = .ok ⟨[nest n], keepsSeparators⟩ := by
  obtain ⟨last, hopen⟩ := @readFrom_replicate_open rule [] none n ('x' :: List.replicate n '\x7d')
  obtain ⟨final, hclose⟩ := @readFrom_replicate_close rule (some 'x') n 0
  have hletter : readFrom rule { groups := List.replicate n ⟨[], []⟩, tokens := [], previous := last }
      ('x' :: List.replicate n '\x7d') =
        .ok { groups := [], tokens := [nest n], previous := final } := by
    rw [Nat.zero_add] at hclose
    rw [readFrom, ← hclose]
    · rfl
    all_goals simp
  rw [List.append_nil, hletter] at hopen
  rw [read, nested, String.toList_ofList]
  show (readFrom rule {} _ >>= _) = _
  rw [hopen]
  rfl

theorem isVoid_nest (n : Nat) : isVoid (nest n) = false := by
  induction n with
  | zero => rfl
  | succ n ih => simp [nest, isVoid, areVoid, isVoidList, ih]

theorem depth_nest (keepsSeparators : Bool) (n : Nat) : depth keepsSeparators (nest n) = n := by
  induction n with
  | zero => rfl
  | succ n ih =>
    have hvoid : isVoidList [nest n] = false := by simp [isVoidList, isVoid_nest]
    have hrow : ¬ 1 < width (nest n) := by
      cases n with
      | zero => simp [nest, width]
      | succ n =>
        rw [nest, width]
        split <;> omega
    simp [nest, depth, areVoid, deepestBranch, deepest, rowWidth, hvoid, hrow, ih, Nat.add_comm]

/-- No matcher can be built if one of the patterns is nested too deep. -/
theorem not_areBuildable_of_nest {gs : List Glob} {keepsSeparators : Bool} (hn : maxDepth ≤ n)
    (hmem : ⟨[nest n], keepsSeparators⟩ ∈ gs) : areBuildable gs = false := by
  rw [areBuildable, List.all_eq_false]
  refine ⟨_, hmem, ?_⟩
  simp [deepest, depth_nest]
  omega

end TokenAudit.Glob
