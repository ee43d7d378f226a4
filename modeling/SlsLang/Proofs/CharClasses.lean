import SlsLang.Proofs.Lists
import SlsLang.Word

namespace SlsLang

theorem char_le_iff (c d : Char) : c ≤ d ↔ c.toNat ≤ d.toNat := by
  rw [Char.le_def, UInt32.le_iff_toNat_le]
  rfl

theorem isDigit_iff {c : Char} : isDigit c = true ↔ 48 ≤ c.toNat ∧ c.toNat ≤ 57 := by
  simp [isDigit, char_le_iff]

theorem isControl_iff {c : Char} : isControl c = true ↔ c.toNat ≤ 31 ∨ c.toNat = 127 := by
  have h : c = '\x7f' ↔ c.toNat = 127 := Char.toNat_inj.symm
  simp [isControl, char_le_iff, h]

theorem isIdentifierStart_iff {c : Char} : isIdentifierStart c = true ↔
    c.toNat = 95 ∨ (97 ≤ c.toNat ∧ c.toNat ≤ 122) ∨ (65 ≤ c.toNat ∧ c.toNat ≤ 90) := by
  have h : c = '_' ↔ c.toNat = 95 := Char.toNat_inj.symm
  simp [isIdentifierStart, isLetter, char_le_iff, h]

theorem isDigit_of_isIdentifierStart {c : Char} (h : isIdentifierStart c = true) :
    isDigit c = false := by
  have hs := isIdentifierStart_iff.mp h
  rw [Bool.eq_false_iff]
  intro hd
  have := isDigit_iff.mp hd
  omega

theorem isControl_of_isIdentifierStart {c : Char} (h : isIdentifierStart c = true) :
    isControl c = false := by
  have hs := isIdentifierStart_iff.mp h
  rw [Bool.eq_false_iff]
  intro hd
  have := isControl_iff.mp hd
  omega

theorem isDigit_of_isControl {c : Char} (h : isControl c = true) : isDigit c = false := by
  have hs := isControl_iff.mp h
  rw [Bool.eq_false_iff]
  intro hd
  have := isDigit_iff.mp hd
  omega

theorem isWordChar_of_isIdentifierChar {c : Char} (h : isIdentifierChar c = true) :
    isWordChar c = true := by
  have hw : isWhitespace c = false := not_contains_of h (by decide)
  have hp : isPunctuation c = false := not_contains_of h (by decide)
  have ho : isOperator c = false := not_contains_of h (by decide)
  simp [isWordChar, hw, hp, ho]

theorem isIdentifierChar_of_isIdentifierStart {c : Char} (h : isIdentifierStart c = true) :
    isIdentifierChar c = true := by
  simp only [isIdentifierStart] at h
  simp [isIdentifierChar, h]

theorem not_isWordChar_of_isWhitespace {c : Char} (h : isWhitespace c = true) :
    isWordChar c = false := by
  simp [isWordChar, h]

theorem not_isNumberChar_of_isWhitespace {c : Char} (h : isWhitespace c = true) :
    isNumberChar c = false := by
  rw [Bool.eq_false_iff]
  intro hn
  have hw : isWhitespace c = false := not_contains_of hn (by decide)
  simp [h] at hw

end SlsLang
