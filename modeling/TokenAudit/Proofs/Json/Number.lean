import TokenAudit.Json.Printer
import TokenAudit.Json.Reader

/-! A natural number that fits a word is read back as it was written. -/

namespace TokenAudit

namespace JsonNumber

variable {n m : Nat} {ds : List Char}

theorem le_ofDigitChars (ds : List Char) (m : Nat) : m ≤ Nat.ofDigitChars 10 ds m := by
  induction ds generalizing m with
  | nil => exact Nat.le_refl m
  | cons d ds ih =>
    have hstep := ih (10 * m + (d.toNat - '0'.toNat))
    rw [Nat.ofDigitChars_cons]
    omega

/-- All digits enter the significand of a number that fits a word. -/
theorem significand_eq (hn : Nat.ofDigitChars 10 ds m ≤ maxWord) :
    significand m ds = (Nat.ofDigitChars 10 ds m, []) := by
  induction ds generalizing m with
  | nil => rfl
  | cons d ds ih =>
    rw [Nat.ofDigitChars_cons] at hn ⊢
    have hle := Nat.le_trans (le_ofDigitChars ds _) hn
    rw [significand, if_pos hle]
    exact ih hn

theorem significand_toDigits (hn : n ≤ maxWord) : significand 0 (Nat.toDigits 10 n) = (n, []) := by
  have hvalue : Nat.ofDigitChars 10 (Nat.toDigits 10 n) 0 = n :=
    Nat.ofDigitChars_toDigits (by decide) (by decide)
  have hfits : Nat.ofDigitChars 10 (Nat.toDigits 10 n) 0 ≤ maxWord := by
    rw [hvalue]
    exact hn
  rw [significand_eq hfits, hvalue]

theorem ofDigits_toDigits (hn : n ≤ maxWord) :
    ofDigits true (Nat.toDigits 10 n) [] none = .natural n := by
  simp [ofDigits, significand_toDigits hn]

theorem head?_toDigits_ne_zero (hn : 0 < n) : (Nat.toDigits 10 n).head? ≠ some '0' := by
  induction n using Nat.strongRecOn with
  | ind n ih =>
    by_cases hlt : n < 10
    · rw [Nat.toDigits_of_lt_base hlt]
      simpa using Nat.ne_of_gt hn
    · have hle : 10 ≤ n := Nat.le_of_not_lt hlt
      obtain ⟨c, r, hc⟩ := List.exists_cons_of_ne_nil (Nat.toDigits_ne_nil (n := n / 10) (b := 10))
      have hfront := ih (n / 10) (Nat.div_lt_self hn (by decide)) (by omega)
      rw [hc] at hfront
      rw [Nat.toDigits_of_base_le (by decide) hle, hc]
      exact hfront

/-- No number is written with a zero in front of other digits. -/
theorem toDigits_ne_zero_cons (n : Nat) (c : Char) (r : List Char) :
    Nat.toDigits 10 n ≠ '0' :: c :: r := by
  intro h
  by_cases hn : 0 < n
  · exact head?_toDigits_ne_zero hn (by rw [h]; rfl)
  · obtain rfl : n = 0 := by omega
    rw [Nat.toDigits_zero] at h
    simp at h

end JsonNumber

namespace Json

variable {n : Nat} {rest : List Char}

/-- The text cannot continue a number. -/
def EndsNumber (rest : List Char) : Prop :=
  ∀ c r, rest = c :: r → c.isDigit = false ∧ c ≠ '.' ∧ c ≠ 'e' ∧ c ≠ 'E'

theorem readExponent_of_ends (hr : EndsNumber rest) (whole : List Char) :
    readExponent true whole [] rest = ⟨.number (.ofDigits true whole [] none), some rest⟩ := by
  cases rest with
  | nil => rfl
  | cons c r =>
    obtain ⟨-, -, he, hE⟩ := hr c r rfl
    simp [readExponent, he, hE]

theorem span_toDigits (hr : EndsNumber rest) (n : Nat) :
    (Nat.toDigits 10 n ++ rest).takeWhile Char.isDigit = Nat.toDigits 10 n ∧
      (Nat.toDigits 10 n ++ rest).dropWhile Char.isDigit = rest := by
  have hdigits : ∀ c ∈ Nat.toDigits 10 n, c.isDigit = true :=
    fun c hc => Nat.isDigit_of_mem_toDigits (by decide) (by decide) hc
  rw [List.takeWhile_append_of_pos hdigits, List.dropWhile_append_of_pos hdigits]
  cases rest with
  | nil => simp
  | cons c r =>
    obtain ⟨hc, -⟩ := hr c r rfl
    simp [hc]

theorem readNumber_toDigits (hn : n ≤ JsonNumber.maxWord) (hr : EndsNumber rest) :
    readNumber true (Nat.toDigits 10 n ++ rest) = ⟨ofNat n, some rest⟩ := by
  obtain ⟨htake, hdrop⟩ := span_toDigits hr n
  have hexponent := readExponent_of_ends hr (Nat.toDigits 10 n)
  rw [JsonNumber.ofDigits_toDigits hn] at hexponent
  unfold readNumber
  simp only [htake, hdrop]
  split
  · next hnil => exact absurd hnil Nat.toDigits_ne_nil
  · next hzero => exact absurd hzero (JsonNumber.toDigits_ne_zero_cons n _ _)
  · split
    · next r =>
      obtain ⟨-, hpoint, -⟩ := hr '.' r rfl
      exact absurd rfl hpoint
    · exact hexponent

end Json

end TokenAudit
