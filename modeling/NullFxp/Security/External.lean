import NullFxp.Security.Password

/-!
# Passwords in hexadecimal digits

`StrToHex` and `HexToStr` come from a library whose strings begin at 1. The state says whether
every character that was read so far is in its string; the one after the last is a NUL.
-/

namespace NullFxp.Security

abbrev Reading := StateM Bool

/-- `s[i]` -/
def charAt (s : Bytes) (i : Nat) : Reading UInt8 :=
  fun inside => (s.getD i 0, inside && decide (i < s.length))

/-! ## Digits -/

def charToHex (ch : UInt8) (upperCase : Bool) : Bytes :=
  (if upperCase then Hex.upper else Hex.lower).ofByte ch

/-- `n` rounds of the loop of `StrToHex`, from `i` on -/
def strToHexLoop (str : Bytes) (upperCase : Bool) (separator : UInt8) :
    Nat → Nat → Bytes → Reading Bytes
  | 0, _, result => pure result
  | n + 1, i, result => do
    let ch ← charAt str i
    let result := result ++ charToHex ch upperCase
    let result := if separator ≠ 0 && i < str.length then result ++ [separator] else result
    strToHexLoop str upperCase separator n (i + 1) result

def strToHex (str : Bytes) (upperCase : Bool) (separator : UInt8) : Reading Bytes :=
  strToHexLoop str upperCase separator str.length 1 []

def toupper (ch : UInt8) : UInt8 := if 97 ≤ ch ∧ ch ≤ 122 then ch - 32 else ch

/-- `int P = Digits.find(c)` -/
def digitPos (ch : UInt8) : Int :=
  if toupper ch ∈ Hex.upper.chars then Hex.upper.chars.idxOf (toupper ch) else -1

/-- The loop of `HexToStr` from `i` on -/
def hexToStrLoop (hex : Bytes) (i : Nat) (result : Bytes) : Reading Bytes :=
  if i ≤ hex.length then do
    let p1 := digitPos (← charAt hex i)
    let p2 := digitPos (← charAt hex (i + 1))
    if p1 ≤ 0 ∨ p2 ≤ 0 then pure []
    else hexToStrLoop hex (i + 2) (result ++ [UInt8.ofNat ((p1 - 1) * 16 + p2 - 1).toNat])
  else pure result
termination_by hex.length + 2 - i

def hexToStr (hex : Bytes) : Reading Bytes :=
  if hex.length % 2 = 0 then hexToStrLoop hex 1 [] else pure []

/-! ## Passwords -/

def setExternalEncryptedPassword (password : Bytes) : Reading Bytes := do
  let hex ← strToHex password true 0
  pure (simpleEncryptChar pwalgSimpleFlag ++ simpleEncryptChar pwalgSimpleExternal ++ hex)

/-- `SimpleDecryptNextChar` reads two characters of a string that is not empty. -/
def readNextChar (str : Bytes) : Reading (UInt8 × Bytes) :=
  fun inside => (simpleDecryptNextChar str, inside && (str.length = 0 || 2 ≤ str.length))

/-- The result, and what `Password` is after it. -/
def getExternalEncryptedPassword (encrypted password : Bytes) : Reading (Bool × Bytes) := do
  let (flag, encrypted) ← readNextChar encrypted
  if flag ≠ pwalgSimpleFlag then return (false, password)
  let (external, encrypted) ← readNextChar encrypted
  if external ≠ pwalgSimpleExternal then return (false, password)
  return (true, ← hexToStr encrypted)

/-- `GetExternalEncryptedPassword(SetExternalEncryptedPassword(p), q)` -/
def externalRoundTrip (p q : Bytes) : Reading (Bool × Bytes) := do
  getExternalEncryptedPassword (← setExternalEncryptedPassword p) q

/-! ## What `HexToStr` returns -/

theorem digitPos_nul : digitPos 0 = -1 := by decide

theorem hexToStrLoop_eq (hex : Bytes) (i : Nat) (result : Bytes) (inside : Bool)
    (hi : i ≤ hex.length) :
    ∃ inside', hexToStrLoop hex i result inside =
      if digitPos (hex.getD i 0) ≤ 0 ∨ digitPos (hex.getD (i + 1) 0) ≤ 0 then ([], inside')
      else hexToStrLoop hex (i + 2) (result ++ [UInt8.ofNat
        ((digitPos (hex.getD i 0) - 1) * 16 + digitPos (hex.getD (i + 1) 0) - 1).toNat]) inside' := by
  refine ⟨inside && decide (i < hex.length) && decide (i + 1 < hex.length), ?_⟩
  rw [hexToStrLoop, if_pos hi]
  simp only [charAt, bind, StateT.bind]
  split
  · rfl
  · rfl

theorem hexToStrLoop_even (hex : Bytes) (k i : Nat) (result : Bytes) (inside : Bool)
    (hlen : hex.length = i + 1 + 2 * k) : (hexToStrLoop hex i result inside).1 = [] := by
  induction k generalizing i result inside with
  | zero =>
    obtain ⟨inside', h⟩ := hexToStrLoop_eq hex i result inside (by omega)
    have hnul : hex.getD (i + 1) 0 = 0 := List.getD_eq_default _ _ (by omega)
    rw [h, hnul, digitPos_nul, if_pos (by omega)]
  | succ k ih =>
    obtain ⟨inside', h⟩ := hexToStrLoop_eq hex i result inside (by omega)
    rw [h]
    split
    · rfl
    · exact ih (i + 2) _ inside' (by omega)

/-- **`HexToStr` returns nothing**, whatever the digits are. -/
theorem hexToStr_empty (hex : Bytes) (inside : Bool) : (hexToStr hex inside).1 = [] := by
  unfold hexToStr
  split
  · next heven =>
    rcases Nat.eq_zero_or_pos hex.length with h0 | hpos
    · rw [hexToStrLoop, if_neg (by omega)]
      rfl
    · exact hexToStrLoop_even hex ((hex.length - 2) / 2) 1 [] inside (by omega)
  · rfl

/-! ## The round trip -/

theorem Reading.pure_apply {α : Type} (a : α) (inside : Bool) :
    (pure a : Reading α) inside = (a, inside) := rfl

theorem readNextChar_append (ch : UInt8) (rest : Bytes) (inside : Bool) :
    readNextChar (simpleEncryptChar ch ++ rest) inside = ((ch, rest), inside) := by
  have hlen : 2 ≤ (simpleEncryptChar ch ++ rest).length := by
    rw [List.length_append, length_simpleEncryptChar]
    omega
  unfold readNextChar
  rw [simpleDecryptNextChar_append, decide_eq_true hlen, Bool.or_true, Bool.and_true]

theorem externalRoundTrip_eq (p q : Bytes) (inside : Bool) :
    externalRoundTrip p q inside =
      ((true, []), (hexToStr (strToHex p true 0 inside).1 (strToHex p true 0 inside).2).2) := by
  obtain ⟨hex, inside', hhex⟩ : ∃ hex inside', strToHex p true 0 inside = (hex, inside') :=
    ⟨_, _, rfl⟩
  unfold externalRoundTrip setExternalEncryptedPassword getExternalEncryptedPassword
  simp only [bind, StateT.bind, hhex, Reading.pure_apply, List.append_assoc, readNextChar_append,
    ne_eq, not_true_eq_false, if_false]
  rw [← hexToStr_empty hex inside']
  rfl

/-- **The external encoding is read back for the empty password only.** -/
theorem external_round_trip_iff (p q : Bytes) :
    externalRoundTrip p q true = ((true, p), true) ↔ p = [] := by
  rw [externalRoundTrip_eq]
  constructor
  · intro h
    exact (congrArg (fun r => r.1.2) h).symm
  · rintro rfl
    change ((true, []), (hexToStrLoop [] 1 [] true).2) = ((true, []), true)
    rw [hexToStrLoop, if_neg (by decide)]
    rfl

theorem external_round_trip_lost :
    externalRoundTrip [97] [] true = ((true, []), false) ∧
    externalRoundTrip [97] [] true ≠ ((true, [97]), true) := by
  -- A password of one letter is lost, and a character after it is read.
  have h : externalRoundTrip [97] [] true = ((true, []), false) := by
    rw [externalRoundTrip_eq]
    change ((true, []), (hexToStrLoop [48, 48] 1 [] false).2) = ((true, []), false)
    rw [hexToStrLoop, if_pos (by decide)]
    rfl
  refine ⟨h, fun hlost => ?_⟩
  rw [h] at hlost
  cases hlost

end NullFxp.Security
