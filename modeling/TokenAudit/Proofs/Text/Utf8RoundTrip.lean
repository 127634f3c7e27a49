import TokenAudit.Proofs.Text.Utf8

/-! A text that is written in UTF-8 is read back. -/

namespace TokenAudit.Text

namespace Utf8

variable {a b c d : UInt8} {r : List UInt8}

theorem isContinuation_of_bounds (hb : 0x80 ≤ b.toNat ∧ b.toNat ≤ 0xBF) :
    isContinuation b = true := by
  simpa [isContinuation, UInt8.le_iff_toNat_le] using hb

theorem isSecond_of_bounds (hb : 0x80 ≤ b.toNat ∧ b.toNat ≤ 0xBF)
    (he : a.toNat = 0xE0 → 0xA0 ≤ b.toNat) (hd : a.toNat = 0xED → b.toNat ≤ 0x9F)
    (hf : a.toNat = 0xF0 → 0x90 ≤ b.toNat) (hl : a.toNat = 0xF4 → b.toNat ≤ 0x8F) :
    isSecond a b = true := by
  unfold isSecond secondRange
  simp only [beq_iff_eq, ← UInt8.toNat_inj, UInt8.reduceToNat]
  split_ifs <;>
    simp only [Bool.and_eq_true, decide_eq_true_eq, UInt8.le_iff_toNat_le, UInt8.reduceToNat] <;>
    omega

theorem next_two (ha : 0xC2 ≤ a.toNat ∧ a.toNat ≤ 0xDF) (hb : isContinuation b = true) :
    next a (b :: r) = (some (char2 a b), r) := by
  unfold Utf8.next
  simp only [Bool.and_eq_true, decide_eq_true_eq, UInt8.le_iff_toNat_le, UInt8.lt_iff_toNat_lt,
    UInt8.reduceToNat]
  rw [if_neg (by omega), if_pos ha, if_pos hb]

theorem next_three (ha : 0xE0 ≤ a.toNat ∧ a.toNat ≤ 0xEF) (hb : isSecond a b = true)
    (hc : isContinuation c = true) : next a (b :: c :: r) = (some (char3 a b c), r) := by
  unfold Utf8.next
  simp only [Bool.and_eq_true, decide_eq_true_eq, UInt8.le_iff_toNat_le, UInt8.lt_iff_toNat_lt,
    UInt8.reduceToNat]
  rw [if_neg (by omega), if_neg (by omega), if_pos ha, if_pos hb, if_pos hc]

theorem next_four (ha : 0xF0 ≤ a.toNat ∧ a.toNat ≤ 0xF4) (hb : isSecond a b = true)
    (hc : isContinuation c = true) (hd : isContinuation d = true) :
    next a (b :: c :: d :: r) = (some (char4 a b c d), r) := by
  unfold Utf8.next
  simp only [Bool.and_eq_true, decide_eq_true_eq, UInt8.le_iff_toNat_le, UInt8.lt_iff_toNat_lt,
    UInt8.reduceToNat]
  rw [if_neg (by omega), if_neg (by omega), if_neg (by omega), if_pos ha, if_pos hb, if_pos hc,
    if_pos hd]

section Encoded

variable {n : Nat}

theorem toNat_continuation (k : Nat) : (UInt8.ofNat (k % 64 + 128)).toNat = k % 64 + 128 :=
  UInt8.toNat_ofNat_of_lt' (show _ < 256 by omega)

theorem isContinuation_continuation (k : Nat) :
    isContinuation (UInt8.ofNat (k % 64 + 128)) = true := by
  have hbyte := toNat_continuation k
  exact isContinuation_of_bounds (by omega)

theorem payload_continuation (k : Nat) : payload (UInt8.ofNat (k % 64 + 128)) 0x40 = k % 64 := by
  rw [payload, toNat_continuation]
  omega

theorem next_encoded_one (hn : n ≤ 0x7F) (r : List UInt8) :
    next (UInt8.ofNat n) r = (some (Char.ofNat n), r) := by
  have ha : (UInt8.ofNat n).toNat = n := UInt8.toNat_ofNat_of_lt' (show _ < 256 by omega)
  have hlt : UInt8.ofNat n < 0x80 := by
    rw [UInt8.lt_iff_toNat_lt, ha]
    exact Nat.lt_succ_of_le hn
  rw [next_of_lt hlt, ha]

theorem next_encoded_two (hlow : 0x7F < n) (hn : n ≤ 0x7FF) (r : List UInt8) :
    next (UInt8.ofNat (n / 64 % 32 + 192)) (UInt8.ofNat (n % 64 + 128) :: r) =
      (some (Char.ofNat n), r) := by
  have ha : (UInt8.ofNat (n / 64 % 32 + 192)).toNat = n / 64 % 32 + 192 :=
    UInt8.toNat_ofNat_of_lt' (show _ < 256 by omega)
  have hvalue : (n / 64 % 32 + 192) % 0x20 * 0x40 + n % 64 = n := by omega
  rw [next_two (by omega) (isContinuation_continuation n), char2, payload_continuation, payload, ha,
    hvalue]

theorem next_encoded_three (hvalid : n < 0xD800 ∨ 0xDFFF < n) (hlow : 0x7FF < n) (hn : n ≤ 0xFFFF)
    (r : List UInt8) :
    next (UInt8.ofNat (n / 4096 % 16 + 224))
        (UInt8.ofNat (n / 64 % 64 + 128) :: UInt8.ofNat (n % 64 + 128) :: r) =
      (some (Char.ofNat n), r) := by
  have ha : (UInt8.ofNat (n / 4096 % 16 + 224)).toNat = n / 4096 % 16 + 224 :=
    UInt8.toNat_ofNat_of_lt' (show _ < 256 by omega)
  have hb := toNat_continuation (n / 64)
  have hsecond : isSecond (UInt8.ofNat (n / 4096 % 16 + 224)) (UInt8.ofNat (n / 64 % 64 + 128)) =
      true := by
    apply isSecond_of_bounds <;> omega
  have hvalue : ((n / 4096 % 16 + 224) % 0x10 * 0x40 + n / 64 % 64) * 0x40 + n % 64 = n := by omega
  rw [next_three (by omega) hsecond (isContinuation_continuation n), char3, payload_continuation,
    payload_continuation, payload, ha, hvalue]

theorem next_encoded_four (hlow : 0xFFFF < n) (hn : n < 0x110000) (r : List UInt8) :
    next (UInt8.ofNat (n / 262144 % 8 + 240))
        (UInt8.ofNat (n / 4096 % 64 + 128) :: UInt8.ofNat (n / 64 % 64 + 128) ::
          UInt8.ofNat (n % 64 + 128) :: r) =
      (some (Char.ofNat n), r) := by
  have ha : (UInt8.ofNat (n / 262144 % 8 + 240)).toNat = n / 262144 % 8 + 240 :=
    UInt8.toNat_ofNat_of_lt' (show _ < 256 by omega)
  have hb := toNat_continuation (n / 4096)
  have hsecond : isSecond (UInt8.ofNat (n / 262144 % 8 + 240))
      (UInt8.ofNat (n / 4096 % 64 + 128)) = true := by
    apply isSecond_of_bounds <;> omega
  have hvalue : (((n / 262144 % 8 + 240) % 0x08 * 0x40 + n / 4096 % 64) * 0x40 + n / 64 % 64) *
      0x40 + n % 64 = n := by omega
  rw [next_four (by omega) hsecond (isContinuation_continuation (n / 64))
    (isContinuation_continuation n), char4, payload_continuation, payload_continuation,
    payload_continuation, payload, ha, hvalue]

end Encoded

/-- A character is read from the bytes that encode it, whatever bytes follow. -/
theorem next_encoded (ch : Char) (r : List UInt8) :
    ∃ a bs, String.utf8EncodeChar ch = a :: bs ∧ next a (bs ++ r) = (some ch, r) := by
  have hvalid : ch.toNat < 0xD800 ∨ 0xDFFF < ch.toNat ∧ ch.toNat < 0x110000 := ch.valid
  have hval : ch.val.toNat = ch.toNat := rfl
  have hencoded : ∃ a bs, String.utf8EncodeChar ch = a :: bs ∧
      next a (bs ++ r) = (some (Char.ofNat ch.toNat), r) := by
    unfold String.utf8EncodeChar
    simp only [hval]
    generalize ch.toNat = n at hvalid
    split_ifs with h₁ h₂ h₃
    · exact ⟨_, [], rfl, next_encoded_one h₁ r⟩
    · exact ⟨_, [_], rfl, next_encoded_two (by omega) h₂ r⟩
    · exact ⟨_, [_, _], rfl, next_encoded_three (by omega) (by omega) h₃ r⟩
    · exact ⟨_, [_, _, _], rfl, next_encoded_four (by omega) (by omega) r⟩
  rwa [Char.ofNat_toNat] at hencoded

theorem decode_toBytes (cs : List Char) : decode (toBytes cs) = cs.map some := by
  induction cs with
  | nil => simp [toBytes, decode]
  | cons ch cs ih =>
    obtain ⟨a, bs, hencode, hnext⟩ := next_encoded ch (toBytes cs)
    have hbytes : toBytes (ch :: cs) = a :: (bs ++ toBytes cs) := by
      rw [toBytes, List.flatMap_cons, hencode]
      rfl
    rw [hbytes, decode, hnext, ih]
    rfl

end Utf8

theorem ofBytes?_toBytes (cs : List Char) : ofBytes? (toBytes cs) = some cs := by
  have hall : ∀ cs : List Char, (cs.map some).mapM id = some cs := by
    intro cs
    induction cs with
    | nil => rfl
    | cons c cs ih =>
      rw [List.map_cons, List.mapM_cons, ih]
      rfl
  rw [ofBytes?, Utf8.decode_toBytes, hall]

end TokenAudit.Text
