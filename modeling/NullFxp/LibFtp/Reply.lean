import NullFxp.QString
import NullFxp.Lib.Text

/-!
# Replies of an FTP server

RFC 959: a three digit code, and one line of text or several.
-/

open Text

namespace NullFxp.LibFtp

abbrev Bytes := List UInt8

abbrev eol : Bytes := [13, 10]

/-- One line of text: any bytes but CR and LF. -/
def IsLine (l : Bytes) : Prop := 13 ∉ l ∧ 10 ∉ l

instance (l : Bytes) : Decidable (IsLine l) := inferInstanceAs (Decidable (_ ∧ _))

def isDigit (b : UInt8) : Bool := 48 ≤ b.toNat && b.toNat ≤ 57

def beginsWithCode : Bytes → Bool
  | a :: b :: c :: d :: _ => isDigit a && isDigit b && isDigit c && d == 32
  | _ => false

def codeBytes (code : Nat) : Bytes :=
  [UInt8.ofNat (48 + code / 100), UInt8.ofNat (48 + code / 10 % 10), UInt8.ofNat (48 + code % 10)]

/-- A well-formed reply. In a reply of several lines, `head` holds the text of the first one and
the lines between it and the last one. -/
structure Reply where
  code : Nat
  head : Option (Bytes × List Bytes)
  text : Bytes
  code_range : 100 ≤ code ∧ code ≤ 599
  head_lines : ∀ h ∈ head, IsLine h.1 ∧ ∀ l ∈ h.2, IsLine l ∧ beginsWithCode l = false
  text_line : IsLine text

namespace Reply

def middle (R : Reply) : List Bytes := R.head.elim [] Prod.snd

/-- "ddd-text" and the lines after it -/
def opening (R : Reply) : Bytes :=
  R.head.elim [] fun h => codeBytes R.code ++ 45 :: h.1 ++ eol ++ h.2.flatMap (· ++ eol)

/-- "ddd text" -/
def lastLine (R : Reply) : Bytes := codeBytes R.code ++ 32 :: R.text

def bytes (R : Reply) : Bytes := R.opening ++ R.lastLine ++ eol

/-- "ddd " -/
def short (code : Nat) (h : 100 ≤ code ∧ code ≤ 599) : Reply :=
  ⟨code, none, [], h, by simp, by decide⟩

end Reply

/-! ## The code -/

def codeChars (code : Nat) : QString := (codeBytes code).map latin1

variable {code : Nat}

theorem mem_codeBytes {b : UInt8} (hcode : code ≤ 599) (h : b ∈ codeBytes code) :
    ∃ d < 10, b = UInt8.ofNat (48 + d) := by
  simp only [codeBytes, List.mem_cons, List.not_mem_nil, or_false] at h
  rcases h with rfl | rfl | rfl
  · exact ⟨code / 100, by omega, rfl⟩
  · exact ⟨code / 10 % 10, by omega, rfl⟩
  · exact ⟨code % 10, by omega, rfl⟩

theorem not_mem_codeBytes {b : UInt8} (hcode : code ≤ 599) (hb : b.toNat < 48) :
    b ∉ codeBytes code := by
  intro h
  obtain ⟨d, hd, rfl⟩ := mem_codeBytes hcode h
  rw [UInt8.toNat_ofNat_of_lt' (by simp [UInt8.size]; omega)] at hb
  omega

theorem isLine_codeBytes (hcode : code ≤ 599) : IsLine (codeBytes code) :=
  ⟨not_mem_codeBytes hcode (by decide), not_mem_codeBytes hcode (by decide)⟩

theorem digitVal_latin1 {d : Nat} (hd : d < 10) :
    digitVal (latin1 (UInt8.ofNat (48 + d))) = some d := by
  have : ∀ d < 10, digitVal (latin1 (UInt8.ofNat (48 + d))) = some d := by decide
  exact this d hd

theorem digitVal_codeChars (hcode : code ≤ 599) :
    ∀ c ∈ codeChars code, ∃ d, digitVal c = some d := by
  intro c hc
  obtain ⟨b, hb, rfl⟩ := List.mem_map.mp hc
  obtain ⟨d, hd, rfl⟩ := mem_codeBytes hcode hb
  exact ⟨d, digitVal_latin1 hd⟩

theorem toInt_codeChars (hcode : code ≤ 599) : toInt (codeChars code) = code := by
  have hval : digitsVal 0 (codeChars code) = some code := by
    simp only [codeChars, codeBytes, List.map_cons, List.map_nil, digitsVal,
      digitVal_latin1 (show code / 100 < 10 by omega),
      digitVal_latin1 (show code / 10 % 10 < 10 by omega),
      digitVal_latin1 (show code % 10 < 10 by omega), Option.bind_some, Option.some.injEq]
    omega
  exact toNumber_of_digits (by simp [codeChars, codeBytes]) hval (digitVal_codeChars hcode)
    (by omega) (by omega)

theorem codeChars_injective {code' : Nat} (hcode : code ≤ 599) (hcode' : code' ≤ 599)
    (h : codeChars code = codeChars code') : code = code' := by
  have := congrArg toInt h
  rw [toInt_codeChars hcode, toInt_codeChars hcode'] at this
  exact Int.ofNat.inj this

theorem codeChars_not_space (hcode : code ≤ 599) :
    ∀ c ∈ codeChars code, isSpace c = false := by
  intro c hc
  obtain ⟨d, hd⟩ := digitVal_codeChars hcode c hc
  exact isSpace_of_digit hd

end NullFxp.LibFtp
