import Mathlib.Tactic.SplitIfs
import TokenAudit.Text.Search
import TokenAudit.Text.Utf8

/-! ASCII patterns are found in a text exactly where they stand in its bytes, whatever else the
bytes are. -/

namespace TokenAudit.Text

namespace Utf8

variable {a b c d : UInt8} {r : List UInt8}

theorem toNat_ofNat_of_valid {n : Nat} (hn : 0x80 ≤ n)
    (hv : n < 0xD800 ∨ 0xDFFF < n ∧ n < 0x110000) : 0x80 ≤ (Char.ofNat n).toNat := by
  have hvalid : n.isValidChar := hv
  rw [Char.ofNat, dif_pos hvalid]
  exact hn

theorem le_toNat_of_isContinuation (hb : isContinuation b = true) : 0x80 ≤ b.toNat := by
  simp only [isContinuation, Bool.and_eq_true, decide_eq_true_eq, UInt8.le_iff_toNat_le] at hb
  exact hb.1

theorem bounds_of_isSecond (hb : isSecond a b = true) :
    0x80 ≤ b.toNat ∧ b.toNat ≤ 0xBF ∧ (a.toNat = 0xE0 → 0xA0 ≤ b.toNat) ∧
      (a.toNat = 0xED → b.toNat ≤ 0x9F) ∧ (a.toNat = 0xF0 → 0x90 ≤ b.toNat) ∧
      (a.toNat = 0xF4 → b.toNat ≤ 0x8F) := by
  unfold isSecond secondRange at hb
  simp only [beq_iff_eq, ← UInt8.toNat_inj, UInt8.reduceToNat] at hb
  split_ifs at hb with h₁ h₂ h₃ h₄ <;>
    simp only [Bool.and_eq_true, decide_eq_true_eq, UInt8.le_iff_toNat_le, UInt8.reduceToNat]
      at hb <;> omega

theorem le_char2 (ha : 0xC2 ≤ a.toNat) (ha' : a.toNat ≤ 0xDF) : 0x80 ≤ (char2 a b).toNat := by
  unfold char2 payload
  apply toNat_ofNat_of_valid <;> omega

theorem le_char3 (ha : 0xE0 ≤ a.toNat) (ha' : a.toNat ≤ 0xEF) (hb : isSecond a b = true) :
    0x80 ≤ (char3 a b c).toNat := by
  have hbounds := bounds_of_isSecond hb
  unfold char3 payload
  apply toNat_ofNat_of_valid <;> omega

theorem le_char4 (ha : 0xF0 ≤ a.toNat) (ha' : a.toNat ≤ 0xF4) (hb : isSecond a b = true) :
    0x80 ≤ (char4 a b c d).toNat := by
  have hbounds := bounds_of_isSecond hb
  unfold char4 payload
  apply toNat_ofNat_of_valid <;> omega

/-- The character that stands for the bytes is not ASCII, and neither is any byte before the
rest. -/
structure Skips (r : List UInt8) (p : Option Char × List UInt8) : Prop where
  char : 0x80 ≤ (p.1.getD '\uFFFD').toNat
  bytes : ∃ used, r = used ++ p.2 ∧ ∀ b ∈ used, 0x80 ≤ b.toNat

theorem skips_none (r : List UInt8) : Skips r (none, r) := by
  refine ⟨?_, [], rfl, by simp⟩
  rw [Option.getD_none]
  decide

theorem skips_some {ch : Char} (hch : 0x80 ≤ ch.toNat) : Skips r (some ch, r) :=
  ⟨hch, [], rfl, by simp⟩

theorem Skips.cons {p : Option Char × List UInt8} (h : Skips r p) (hb : 0x80 ≤ b.toNat) :
    Skips (b :: r) p := by
  obtain ⟨hchar, used, rfl, hused⟩ := h
  exact ⟨hchar, b :: used, rfl, List.forall_mem_cons.mpr ⟨hb, hused⟩⟩

theorem next_of_lt (ha : a < 0x80) (r : List UInt8) :
    next a r = (some (Char.ofNat a.toNat), r) := by
  unfold Utf8.next
  rw [if_pos ha]

/-- Bytes from 0x80 on never lead to an ASCII character, and no ASCII byte is lost among them. -/
theorem skips_next (ha : ¬ a < 0x80) (r : List UInt8) : Skips r (next a r) := by
  unfold Utf8.next
  simp only [if_neg ha, Bool.and_eq_true, decide_eq_true_eq, UInt8.le_iff_toNat_le,
    UInt8.reduceToNat]
  split_ifs with h₂ h₃ h₄
  · rcases r with _ | ⟨b, r⟩
    · exact skips_none []
    dsimp only
    split_ifs with hb
    · exact (skips_some (le_char2 h₂.1 h₂.2)).cons (le_toNat_of_isContinuation hb)
    · exact skips_none _
  · rcases r with _ | ⟨b, r⟩
    · exact skips_none []
    dsimp only
    split_ifs with hb
    · have hb' := (bounds_of_isSecond hb).1
      rcases r with _ | ⟨c, r⟩
      · exact (skips_none []).cons hb'
      dsimp only
      split_ifs with hc
      · have hc' := le_toNat_of_isContinuation hc
        exact ((skips_some (le_char3 h₃.1 h₃.2 hb)).cons hc').cons hb'
      · exact (skips_none _).cons hb'
    · exact skips_none _
  · rcases r with _ | ⟨b, r⟩
    · exact skips_none []
    dsimp only
    split_ifs with hb
    · have hb' := (bounds_of_isSecond hb).1
      rcases r with _ | ⟨c, r⟩
      · exact (skips_none []).cons hb'
      dsimp only
      split_ifs with hc
      · have hc' := le_toNat_of_isContinuation hc
        rcases r with _ | ⟨d, r⟩
        · exact ((skips_none []).cons hc').cons hb'
        dsimp only
        split_ifs with hd
        · have hd' := le_toNat_of_isContinuation hd
          exact (((skips_some (le_char4 h₄.1 h₄.2 hb)).cons hd').cons hc').cons hb'
        · exact ((skips_none _).cons hc').cons hb'
      · exact (skips_none _).cons hb'
    · exact skips_none _
  · exact skips_none r

end Utf8

variable {pattern : List Char}

/-- All characters are ASCII. -/
def Ascii (pattern : List Char) : Prop := ∀ c ∈ pattern, c.toNat < 0x80

instance (pattern : List Char) : Decidable (Ascii pattern) :=
  List.decidableBAll (fun c : Char => c.toNat < 0x80) pattern

theorem ofBytesLossy_cons (a : UInt8) (r : List UInt8) :
    ofBytesLossy (a :: r) = (Utf8.next a r).1.getD '\uFFFD' :: ofBytesLossy (Utf8.next a r).2 := by
  rw [ofBytesLossy, Utf8.decode, List.map_cons, ofBytesLossy]

theorem toBytes_cons_of_lt {c : Char} (hc : c.toNat < 0x80) (cs : List Char) :
    toBytes (c :: cs) = UInt8.ofNat c.toNat :: toBytes cs := by
  have hone : String.utf8EncodeChar c = [UInt8.ofNat c.toNat] := by
    have hle : ¬ 0x7F < c.toNat := by omega
    simp [String.utf8EncodeChar, hle]
  rw [toBytes, List.flatMap_cons, hone]
  rfl

theorem eq_ofNat_iff {a : UInt8} {c : Char} (ha : a < 0x80) (hc : c.toNat < 0x80) :
    c = Char.ofNat a.toNat ↔ UInt8.ofNat c.toNat = a := by
  have ha' : a.toNat < 0x80 := UInt8.lt_iff_toNat_lt.mp ha
  constructor
  · intro h
    subst h
    have hvalid : a.toNat.isValidChar := Or.inl (by omega)
    have hchar : (Char.ofNat a.toNat).toNat = a.toNat := by
      rw [Char.ofNat, dif_pos hvalid]
      rfl
    rw [hchar, UInt8.ofNat_toNat]
  · intro h
    subst h
    have hbyte : (UInt8.ofNat c.toNat).toNat = c.toNat := by
      rw [UInt8.toNat_ofNat']
      omega
    rw [hbyte, Char.ofNat_toNat]

theorem ofNat_ne_of_le {b : UInt8} {c : Char} (hb : 0x80 ≤ b.toNat) (hc : c.toNat < 0x80) :
    UInt8.ofNat c.toNat ≠ b := by
  intro h
  subst h
  rw [UInt8.toNat_ofNat'] at hb
  omega

theorem isPrefixOf_ofBytesLossy (ascii : Ascii pattern) (bytes : List UInt8) :
    pattern.isPrefixOf (ofBytesLossy bytes) = true ↔ toBytes pattern <+: bytes := by
  induction pattern generalizing bytes with
  | nil => simp [toBytes]
  | cons c pattern ih =>
    have hc : c.toNat < 0x80 := ascii c List.mem_cons_self
    have hrest := ih fun c' hc' => ascii c' (List.mem_cons_of_mem _ hc')
    rw [toBytes_cons_of_lt hc]
    cases bytes with
    | nil => simp [ofBytesLossy, Utf8.decode]
    | cons a r =>
      rw [ofBytesLossy_cons, List.isPrefixOf_cons_cons, List.cons_prefix_cons, Bool.and_eq_true,
        beq_iff_eq]
      by_cases ha : a < 0x80
      · rw [Utf8.next_of_lt ha, hrest, Option.getD_some, eq_ofNat_iff ha hc]
      · have hchar := (Utf8.skips_next ha r).char
        have hne : c ≠ (Utf8.next a r).1.getD '\uFFFD' := by
          intro h
          subst h
          omega
        have ha' : 0x80 ≤ a.toNat := by
          rw [UInt8.lt_iff_toNat_lt] at ha
          exact Nat.le_of_not_lt ha
        simp [hne, ofNat_ne_of_le ha' hc]

/-- Bytes from 0x80 on are no part of an ASCII pattern. -/
theorem isInfix_append_iff (ascii : Ascii pattern) (hne : pattern ≠ []) {used : List UInt8}
    (hused : ∀ b ∈ used, 0x80 ≤ b.toNat) (r : List UInt8) :
    toBytes pattern <:+: used ++ r ↔ toBytes pattern <:+: r := by
  obtain ⟨c, pattern, rfl⟩ := List.exists_cons_of_ne_nil hne
  have hc : c.toNat < 0x80 := ascii c List.mem_cons_self
  rw [toBytes_cons_of_lt hc]
  induction used with
  | nil => rfl
  | cons b used ih =>
    have hb := ofNat_ne_of_le (hused b List.mem_cons_self) hc
    have hrest : UInt8.ofNat c.toNat :: toBytes pattern <:+: used ++ r ↔
        UInt8.ofNat c.toNat :: toBytes pattern <:+: r :=
      ih fun b hb => hused b (List.mem_cons_of_mem _ hb)
    rw [List.cons_append, List.infix_cons_iff, List.cons_prefix_cons, hrest]
    simp [hb]

/-- An ASCII pattern stands in a text exactly if its bytes stand in those of the text, one after
another. -/
theorem hasInfix_ofBytesLossy (ascii : Ascii pattern) (hne : pattern ≠ []) (bytes : List UInt8) :
    hasInfix pattern (ofBytesLossy bytes) = true ↔ toBytes pattern <:+: bytes := by
  induction bytes using Utf8.decode.induct with
  | case1 =>
    obtain ⟨c, pattern, rfl⟩ := List.exists_cons_of_ne_nil hne
    rw [toBytes_cons_of_lt (ascii c List.mem_cons_self)]
    simp [ofBytesLossy, Utf8.decode, hasInfix]
  | case2 a r ih =>
    have hcut : toBytes pattern <:+: r ↔ toBytes pattern <:+: (Utf8.next a r).2 := by
      by_cases ha : a < 0x80
      · rw [Utf8.next_of_lt ha]
      · obtain ⟨used, hr, hused⟩ := (Utf8.skips_next ha r).bytes
        have happend := isInfix_append_iff ascii hne hused (Utf8.next a r).2
        rwa [← hr] at happend
    rw [List.infix_cons_iff, ← isPrefixOf_ofBytesLossy ascii, hcut, ← ih, ofBytesLossy_cons,
      hasInfix, Bool.or_eq_true]

end TokenAudit.Text
