import NullFxp.Lib.Hex

/-!
# Passwords with a key

`EncryptPassword` puts the key before the password, writes the length of both, a shift, as many
random bytes as the shift says, the text, and random bytes up to a fixed length.
Every byte is two digits.
-/

namespace NullFxp.Security

abbrev Bytes := List UInt8

def pwalgSimpleMagic : UInt8 := 0xA3
def pwalgSimpleString : Hex.Digits := Hex.upper
def pwalgSimpleMaxlen : Nat := 50
def pwalgSimpleFlag : UInt8 := 0xFF
def pwalgSimpleInternal : UInt8 := 0x00
def pwalgSimpleExternal : UInt8 := 0x01

def npos : UInt64 := 0xFFFFFFFFFFFFFFFF

/-- `s.find(c)` -/
def find (s : Bytes) (c : UInt8) : UInt64 := if c ∈ s then UInt64.ofNat (s.idxOf c) else npos

def simpleEncryptChar (ch : UInt8) : Bytes := pwalgSimpleString.ofByte (~~~ch ^^^ pwalgSimpleMagic)

/-- The byte, and what is left of `Str`. A NUL follows the last character. -/
def simpleDecryptNextChar (str : Bytes) : UInt8 × Bytes :=
  if 0 < str.length then
    let hi := find pwalgSimpleString.chars (str.getD 0 0)
    let lo := find pwalgSimpleString.chars (str.getD 1 0)
    ((~~~((hi <<< 4 + lo) ^^^ pwalgSimpleMagic.toUInt64)).toUInt8, str.drop 2)
  else (0x00, str)

/-! ## Encryption -/

def encryptChars (bs : Bytes) : Bytes := bs.flatMap simpleEncryptChar

/-- `n` bytes from `rand()`, the first of them from call number `next` -/
def randomBytes (rand : Nat → Nat) (next n : Nat) : Bytes :=
  (List.range' next n).map fun i => UInt8.ofNat (rand i)

theorem length_simpleEncryptChar (ch : UInt8) : (simpleEncryptChar ch).length = 2 := rfl

/-- `while (Result.length() < PWALG_SIMPLE_MAXLEN * 2)` -/
def pad (rand : Nat → Nat) (next : Nat) (result : Bytes) : Bytes :=
  if result.length < pwalgSimpleMaxlen * 2 then
    pad rand (next + 1) (result ++ simpleEncryptChar (UInt8.ofNat (rand next)))
  else result
termination_by pwalgSimpleMaxlen * 2 - result.length
decreasing_by
  rw [List.length_append, length_simpleEncryptChar]
  omega

/-- `rand i` is what call number `i` of `rand()` returns. -/
def encryptPassword (rand : Nat → Nat) (password key : Bytes) : Bytes :=
  let password := key ++ password
  let (shift, next) :=
    if password.length < pwalgSimpleMaxlen then
      ((UInt8.ofNat (rand 0)).toNat % (pwalgSimpleMaxlen - password.length), 1)
    else (0, 0)
  let result := simpleEncryptChar pwalgSimpleFlag ++ simpleEncryptChar pwalgSimpleInternal ++
    simpleEncryptChar (UInt8.ofNat password.length) ++ simpleEncryptChar (UInt8.ofNat shift)
  let result := result ++ encryptChars (randomBytes rand next shift)
  let result := result ++ encryptChars password
  pad rand (next + shift) result

/-! ## Decryption -/

/-- `for (Index = 0; Index < Length; Index++) Result += SimpleDecryptNextChar(Password)` -/
def decryptChars : Nat → Bytes → Bytes
  | 0, _ => []
  | n + 1, password =>
    let (ch, password) := simpleDecryptNextChar password
    ch :: decryptChars n password

def decryptPassword (password key : Bytes) : Bytes :=
  let (flag, password) := simpleDecryptNextChar password
  let (length, password) :=
    if flag = pwalgSimpleFlag then
      let (_, password) := simpleDecryptNextChar password
      simpleDecryptNextChar password
    else (flag, password)
  let (index, password) := simpleDecryptNextChar password
  let password := password.drop (index.toNat * 2)
  let result := decryptChars length.toNat password
  if flag = pwalgSimpleFlag then
    if result.take key.length ≠ key then [] else result.drop key.length
  else result

/-! ## One byte -/

theorem find_digit {n : Nat} (h : n < 16) (D : Hex.Digits) :
    find D.chars (D.digit n) = UInt64.ofNat n := by
  rw [find, if_pos (D.digit_mem h), D.idxOf_digit h]

theorem halves_eq (c : UInt8) :
    UInt64.ofNat (c.toNat / 16) <<< 4 + UInt64.ofNat (c.toNat % 16) = c.toUInt64 := by
  have hc := c.toNat_lt
  apply UInt64.toNat_inj.mp
  rw [UInt64.toNat_add, UInt64.toNat_shiftLeft, UInt64.toNat_ofNat', UInt64.toNat_ofNat',
    UInt8.toNat_toUInt64]
  have hfour : (4 : UInt64).toNat % 64 = 4 := rfl
  rw [hfour, Nat.shiftLeft_eq]
  omega

/-- **A byte that was encrypted is read back**, and nothing more is read. -/
theorem simpleDecryptNextChar_append (ch : UInt8) (rest : Bytes) :
    simpleDecryptNextChar (simpleEncryptChar ch ++ rest) = (ch, rest) := by
  unfold simpleEncryptChar
  generalize hc : ~~~ch ^^^ pwalgSimpleMagic = c
  have hlt := c.toNat_lt
  have hch : ~~~(c ^^^ pwalgSimpleMagic) = ch := by
    rw [← hc, UInt8.xor_assoc, UInt8.xor_self, UInt8.xor_zero, UInt8.not_not]
  rw [Hex.Digits.ofByte_eq]
  unfold simpleDecryptNextChar
  rw [if_pos (by simp)]
  simp only [List.cons_append, List.nil_append, List.getD_cons_zero, List.getD_cons_succ,
    List.drop_succ_cons, List.drop_zero]
  rw [find_digit (by omega), find_digit (by omega), halves_eq, UInt64.toUInt8_not,
    UInt64.toUInt8_xor, UInt8.toUInt8_toUInt64, UInt8.toUInt8_toUInt64, hch]

theorem decryptChars_append (bs rest : Bytes) :
    ∀ n ≤ bs.length, decryptChars n (encryptChars bs ++ rest) = bs.take n := by
  induction bs with
  | nil =>
    intro n hn
    obtain rfl : n = 0 := by simpa using hn
    rfl
  | cons b bs ih =>
    intro n hn
    cases n with
    | zero => rfl
    | succ n =>
      have hcons : encryptChars (b :: bs) ++ rest =
          simpleEncryptChar b ++ (encryptChars bs ++ rest) := by
        simp [encryptChars]
      have hn : n ≤ bs.length := Nat.le_of_succ_le_succ hn
      rw [hcons, decryptChars, simpleDecryptNextChar_append, List.take_succ_cons, ← ih n hn]

theorem length_encryptChars (bs : Bytes) : (encryptChars bs).length = bs.length * 2 := by
  induction bs with
  | nil => rfl
  | cons b bs ih =>
    change (simpleEncryptChar b ++ encryptChars bs).length = _
    rw [List.length_append, length_simpleEncryptChar, ih, List.length_cons]
    omega

theorem drop_encryptChars (bs rest : Bytes) :
    (encryptChars bs ++ rest).drop (bs.length * 2) = rest := by
  rw [← length_encryptChars]
  exact List.drop_left

/-! ## The whole text -/

theorem pad_eq_append (rand : Nat → Nat) (next : Nat) (result : Bytes) :
    ∃ padding, pad rand next result = result ++ padding := by
  fun_induction pad rand next result with
  | case1 next result _ ih =>
    obtain ⟨padding, h⟩ := ih
    exact ⟨_, by rw [h, List.append_assoc]⟩
  | case2 next result _ => exact ⟨[], by simp⟩

theorem encryptPassword_eq (rand : Nat → Nat) (password key : Bytes) :
    ∃ shift : Bytes, ∃ padding, shift.length < 256 ∧
      encryptPassword rand password key = encryptChars (
        [pwalgSimpleFlag, pwalgSimpleInternal, UInt8.ofNat (key ++ password).length,
          UInt8.ofNat shift.length]) ++ (encryptChars shift ++
        (encryptChars (key ++ password) ++ padding)) := by
  unfold encryptPassword
  simp only
  generalize hshift : (if (key ++ password).length < pwalgSimpleMaxlen then _ else _ : Nat × Nat) = s
  have hlt : s.1 < 256 := by
    have hbyte := (UInt8.ofNat (rand 0)).toNat_lt
    rw [← hshift]
    split
    · exact Nat.lt_of_le_of_lt (Nat.mod_le _ _) hbyte
    · decide
  obtain ⟨padding, hpad⟩ := pad_eq_append rand (s.2 + s.1)
    (simpleEncryptChar pwalgSimpleFlag ++ simpleEncryptChar pwalgSimpleInternal ++
      simpleEncryptChar (UInt8.ofNat (key ++ password).length) ++ simpleEncryptChar (UInt8.ofNat s.1) ++
      encryptChars (randomBytes rand s.2 s.1) ++ encryptChars (key ++ password))
  have hlen : (randomBytes rand s.2 s.1).length = s.1 := by simp [randomBytes]
  refine ⟨randomBytes rand s.2 s.1, padding, by rw [hlen]; exact hlt, ?_⟩
  rw [hpad, hlen]
  simp [encryptChars]

theorem decrypt_encrypt (rand : Nat → Nat) (password key key' : Bytes) :
    let text := (key ++ password).take ((key ++ password).length % 256)
    decryptPassword (encryptPassword rand password key) key' =
      if key' <+: text then text.drop key'.length else [] := by
  intro text
  obtain ⟨shift, padding, hshift, henc⟩ := encryptPassword_eq rand password key
  rw [henc]
  have hhead : ∀ b bs rest, encryptChars (b :: bs) ++ rest =
      simpleEncryptChar b ++ (encryptChars bs ++ rest) := by simp [encryptChars]
  have hnil : ∀ rest, encryptChars [] ++ rest = rest := fun _ => rfl
  have htoNat : (UInt8.ofNat shift.length).toNat = shift.length := by
    rw [UInt8.toNat_ofNat']
    exact Nat.mod_eq_of_lt hshift
  have hresult : decryptChars (UInt8.ofNat (key ++ password).length).toNat
      (encryptChars (key ++ password) ++ padding) = text := by
    rw [UInt8.toNat_ofNat']
    exact decryptChars_append _ _ _ (Nat.mod_le _ _)
  unfold decryptPassword
  simp only [hhead, hnil, simpleDecryptNextChar_append, if_true, htoNat, drop_encryptChars, hresult]
  by_cases hk : key' <+: text
  · rw [if_pos hk, if_neg (by simpa using (List.prefix_iff_eq_take.mp hk).symm)]
  · rw [if_neg hk, if_pos]
    intro heq
    exact hk (List.prefix_iff_eq_take.mpr heq.symm)

/-- **Up to 255 bytes of key and password are read back**, with another key what follows it, and
beyond that never all of the password. -/
theorem password_round_trip (rand : Nat → Nat) (password key : Bytes) :
    (key.length + password.length ≤ 255 →
      decryptPassword (encryptPassword rand password key) key = password ∧
      ∀ key', decryptPassword (encryptPassword rand password key) key' =
        if key' <+: key ++ password then (key ++ password).drop key'.length else []) ∧
    (255 < key.length + password.length → password ≠ [] →
      decryptPassword (encryptPassword rand password key) key ≠ password) := by
  refine ⟨fun hlen => ?_, fun hlen hne => ?_⟩
  · have htext : (key ++ password).take ((key ++ password).length % 256) = key ++ password := by
      rw [Nat.mod_eq_of_lt (by rw [List.length_append]; omega), List.take_length]
    have hany : ∀ key', decryptPassword (encryptPassword rand password key) key' =
        if key' <+: key ++ password then (key ++ password).drop key'.length else [] := by
      intro key'
      rw [decrypt_encrypt, htext]
    refine ⟨?_, hany⟩
    rw [hany, if_pos (List.prefix_append _ _), List.drop_left]
  · rw [decrypt_encrypt]
    intro h
    have hshort : (key ++ password).length % 256 < key.length + password.length := by omega
    split at h
    · have := congrArg List.length h
      have hpos := List.length_pos_of_ne_nil hne
      rw [List.length_drop, List.length_take, List.length_append] at this
      rw [List.length_append] at hshort
      omega
    · exact hne h.symm

theorem password_round_trip_short :
    decryptPassword (encryptPassword (fun _ => 7) [112, 0] [107]) [107] = [112, 0] ∧
    decryptPassword (encryptPassword (fun _ => 7) [112, 0] [107]) [] = [107, 112, 0] := by
  obtain ⟨hself, hother⟩ := (password_round_trip (fun _ => 7) [112, 0] [107]).1 (by decide)
  exact ⟨hself, by rw [hother]; rfl⟩

end NullFxp.Security
