import PredictiveParsing.Text.Utf8

/-!
# Well-formed bytes are decoded

The bytes of a text in UTF-8 are the document of its characters (`Doc.ofBytes_toUTF8`): each
character is told from its own bytes, whatever follows (`leading_utf8EncodeChar`).
-/

namespace PredictiveParsing.Doc

/-! ## One character -/

section

variable {a b c d : UInt8} {n : Nat} (s : List UInt8)

theorem isTail_of_toNat {k : Nat} (h : a.toNat = k % 64 + 128) : isTail a = true := by
  simp only [isTail, Bool.and_eq_true, decide_eq_true_eq, UInt8.le_iff_toNat_le, h]
  exact ⟨Nat.le_add_left _ _, by have := Nat.mod_lt k (show 64 > 0 by decide); simp; omega⟩

theorem not_low (ha : 0x80 ≤ a.toNat) : ¬ a < 0x80 := by
  rw [UInt8.lt_iff_toNat_lt]
  exact Nat.not_lt.mpr ha

theorem isTwo_eq_false (ha : 0xDF < a.toNat) : isTwo a b = false := by
  have hhigh : ¬ a ≤ 0xDF := by
    rw [UInt8.le_iff_toNat_le]
    exact Nat.not_le.mpr ha
  simp [isTwo, hhigh]

theorem leading_one (hn : n ≤ 0x7F) (ha : a.toNat = n) :
    leading a s = some (Char.ofNat n, 0) := by
  have hlow : a < 0x80 := by
    rw [UInt8.lt_iff_toNat_lt, ha]
    exact Nat.lt_succ_of_le hn
  rw [leading.eq_def, if_pos hlow, ha]

theorem leading_two (hn : 0x7F < n ∧ n ≤ 0x7FF) (ha : a.toNat = n / 64 % 32 + 192)
    (hb : b.toNat = n % 64 + 128) : leading a (b :: s) = some (Char.ofNat n, 1) := by
  have hlow : ¬ a < 0x80 := not_low (by omega)
  have htwo : isTwo a b = true := by
    simp only [isTwo, isTail_of_toNat hb, Bool.and_true, Bool.and_eq_true, decide_eq_true_eq,
      UInt8.le_iff_toNat_le, ha]
    simp
    omega
  have hvalue : (a.toNat - 0xC0) * 64 + (b.toNat - 0x80) = n := by omega
  simp only [leading, hlow, htwo, if_true, if_false, assemble, List.foldl_cons, List.foldl_nil,
    hvalue]

theorem leading_three (hn : 0x7FF < n ∧ n ≤ 0xFFFF) (hvalid : n < 0xD800 ∨ 0xDFFF < n)
    (ha : a.toNat = n / 4096 % 16 + 224) (hb : b.toNat = n / 64 % 64 + 128)
    (hc : c.toNat = n % 64 + 128) : leading a (b :: c :: s) = some (Char.ofNat n, 2) := by
  have hlow : ¬ a < 0x80 := not_low (by omega)
  have htwo : isTwo a b = false := isTwo_eq_false (by omega)
  have hthree : isThree a b c = true := by
    simp only [isThree, isTail_of_toNat hb, isTail_of_toNat hc, Bool.and_true, Bool.and_eq_true,
      decide_eq_true_eq, Bool.not_eq_true', Bool.and_eq_false_imp, beq_iff_eq, decide_eq_false_iff_not,
      UInt8.le_iff_toNat_le, UInt8.lt_iff_toNat_lt, ← UInt8.toNat_inj, ha, hb]
    simp
    omega
  have hvalue : ((a.toNat - 0xE0) * 64 + (b.toNat - 0x80)) * 64 + (c.toNat - 0x80) = n := by omega
  simp only [leading, hlow, htwo, hthree, if_true, if_false, assemble, List.foldl_cons,
    List.foldl_nil, hvalue, Bool.false_eq_true]

theorem leading_four (hn : 0xFFFF < n ∧ n < 0x110000) (ha : a.toNat = n / 262144 % 8 + 240)
    (hb : b.toNat = n / 4096 % 64 + 128) (hc : c.toNat = n / 64 % 64 + 128)
    (hd : d.toNat = n % 64 + 128) :
    leading a (b :: c :: d :: s) = some (Char.ofNat n, 3) := by
  have hlow : ¬ a < 0x80 := not_low (by omega)
  have hhigh : ¬ a ≤ 0xEF := by
    rw [UInt8.le_iff_toNat_le, ha]
    simp
  have htwo : isTwo a b = false := isTwo_eq_false (by omega)
  have hthree : isThree a b c = false := by simp [isThree, hhigh]
  have hfour : isFour a b c d = true := by
    simp only [isFour, isTail_of_toNat hb, isTail_of_toNat hc, isTail_of_toNat hd, Bool.and_true,
      Bool.and_eq_true, decide_eq_true_eq, Bool.not_eq_true', Bool.and_eq_false_imp, beq_iff_eq,
      decide_eq_false_iff_not, UInt8.le_iff_toNat_le, UInt8.lt_iff_toNat_lt, ← UInt8.toNat_inj, ha,
      hb]
    simp
    omega
  have hvalue : (((a.toNat - 0xF0) * 64 + (b.toNat - 0x80)) * 64 + (c.toNat - 0x80)) * 64 +
      (d.toNat - 0x80) = n := by omega
  simp only [leading, hlow, htwo, hthree, hfour, if_true, if_false, assemble, List.foldl_cons,
    List.foldl_nil, hvalue, Bool.false_eq_true]

end

/-- A character is told from its bytes, whatever stands behind them. -/
theorem leading_utf8EncodeChar (c : Char) (s : List UInt8) :
    ∃ a tails, String.utf8EncodeChar c = a :: tails ∧
      leading a (tails ++ s) = some (c, tails.length) := by
  have hvalid : c.toNat < 0xD800 ∨ 0xDFFF < c.toNat ∧ c.toNat < 0x110000 := c.valid
  have hbyte : ∀ k < 256, (UInt8.ofNat k).toNat = k := fun k hk => UInt8.toNat_ofNat_of_lt hk
  have hchar : Char.ofNat c.val.toNat = c := Char.ofNat_toNat c
  rw [Char.toNat] at hvalid
  rw [String.utf8EncodeChar.eq_1]
  generalize c.val.toNat = n at *
  subst hchar
  by_cases hone : n ≤ 0x7F
  · rw [if_pos hone]
    exact ⟨_, _, rfl, leading_one s hone (hbyte n (by omega))⟩
  rw [if_neg hone]
  by_cases htwo : n ≤ 0x7FF
  · rw [if_pos htwo]
    exact ⟨_, _, rfl, leading_two s ⟨by omega, htwo⟩ (hbyte _ (by omega)) (hbyte _ (by omega))⟩
  rw [if_neg htwo]
  by_cases hthree : n ≤ 0xFFFF
  · rw [if_pos hthree]
    exact ⟨_, _, rfl, leading_three s ⟨by omega, hthree⟩ (by omega) (hbyte _ (by omega))
      (hbyte _ (by omega)) (hbyte _ (by omega))⟩
  · rw [if_neg hthree]
    exact ⟨_, _, rfl, leading_four s (by omega) (hbyte _ (by omega)) (hbyte _ (by omega))
      (hbyte _ (by omega)) (hbyte _ (by omega))⟩

/-! ## All characters -/

theorem decode_tails (acc : Doc) (tails s : List UInt8) :
    decode acc tails.length (tails ++ s) = decode acc 0 s := by
  induction tails with
  | nil => rfl
  | cons b tails ih => simpa [decode] using ih

theorem decode_utf8 (acc : Doc) (cs : List Char) :
    decode acc 0 (cs.flatMap String.utf8EncodeChar) = acc.reverse ++ cs.map some := by
  induction cs generalizing acc with
  | nil => simp [decode]
  | cons c cs ih =>
    obtain ⟨a, tails, hbytes, hleading⟩ :=
      leading_utf8EncodeChar c (cs.flatMap String.utf8EncodeChar)
    rw [List.flatMap_cons, hbytes, List.cons_append, decode, hleading]
    simp only
    rw [decode_tails, ih]
    simp

/-- The bytes of a text are the document of the text. -/
theorem ofBytes_toUTF8 (s : String) : ofBytes s.toUTF8.data.toList = ofString s := by
  have hbytes : s.toUTF8.data.toList = s.toList.flatMap String.utf8EncodeChar := by
    rw [String.toUTF8, ← String.utf8Encode_toList, List.utf8Encode, List.data_toByteArray]
  rw [ofBytes, hbytes, decode_utf8]
  rfl

end PredictiveParsing.Doc
