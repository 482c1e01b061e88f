import NullFxp.Lib.Hex

/-!
# Percent encoding

A text is encoded in UTF-8. Letters, digits and four other characters stay, and every other byte
becomes a percent sign with two digits.
-/

namespace Percent

def unreserved (b : UInt8) : Bool :=
  (65 ≤ b && b ≤ 90) || (97 ≤ b && b ≤ 122) || (48 ≤ b && b ≤ 57) ||
    b = 45 || b = 46 || b = 95 || b = 126

def utf8 (s : List Char) : List UInt8 := s.flatMap String.utf8EncodeChar

def encodeByte (b : UInt8) : List UInt8 := if unreserved b then [b] else 37 :: Hex.upper.ofByte b

def encode (s : List Char) : List UInt8 := (utf8 s).flatMap encodeByte

/-- A character after a percent sign that is no digit counts with its own number. -/
def digitOr (c : UInt8) : UInt8 := (Hex.value c).getD c

def decodeBytes : List UInt8 → List UInt8
  | 37 :: hi :: lo :: rest => (digitOr hi <<< 4 ||| digitOr lo) :: decodeBytes rest
  | b :: rest => b :: decodeBytes rest
  | [] => []

/-- A byte that begins no character becomes the replacement character. -/
def fromUtf8 (bs : List UInt8) : List Char :=
  match bs with
  | [] => []
  | b :: rest =>
    match (b :: rest).toByteArray.utf8DecodeChar? 0 with
    | some c => c :: fromUtf8 (rest.drop (c.utf8Size - 1))
    | none => Char.ofNat 0xFFFD :: fromUtf8 rest
termination_by bs.length
decreasing_by
  · simp only [List.length_drop, List.length_cons]
    omega
  · simp

def decode (bs : List UInt8) : List Char := fromUtf8 (decodeBytes bs)

/-! ## Bytes -/

theorem ne_percent_of_unreserved {b : UInt8} (h : unreserved b = true) : b ≠ 37 := by
  rintro rfl
  exact absurd h (by decide)

theorem value_upper : ∀ n < 16, Hex.value (Hex.upper.digit n) = some (UInt8.ofNat n) := by decide

theorem decodeBytes_encodeByte (b : UInt8) (rest : List UInt8) :
    decodeBytes (encodeByte b ++ rest) = b :: decodeBytes rest := by
  have hb := b.toNat_lt
  unfold encodeByte
  split
  · next h =>
    have hne := ne_percent_of_unreserved h
    rw [List.singleton_append, decodeBytes]
    intro _ _ _ heq
    exact absurd heq hne
  · rw [Hex.Digits.ofByte_eq]
    simp only [List.cons_append, List.nil_append, decodeBytes, digitOr]
    rw [value_upper _ (show b.toNat / 16 < 16 by omega),
      value_upper _ (show b.toNat % 16 < 16 by omega), Option.getD_some, Option.getD_some,
      UInt8.or_comm, Hex.join_halves]

theorem decodeBytes_encode (s : List Char) : decodeBytes (encode s) = utf8 s := by
  unfold encode
  induction utf8 s with
  | nil => rfl
  | cons b bs ih => rw [List.flatMap_cons, decodeBytes_encodeByte, ih]

/-! ## Texts -/

theorem fromUtf8_utf8 (s : List Char) : fromUtf8 (utf8 s) = s := by
  induction s with
  | nil => rw [utf8, List.flatMap_nil, fromUtf8]
  | cons c s ih =>
    have hsplit : utf8 (c :: s) = String.utf8EncodeChar c ++ utf8 s := rfl
    have hlen := String.length_utf8EncodeChar c
    have hpos := c.utf8Size_pos
    have hdecode : (String.utf8EncodeChar c ++ utf8 s).toByteArray.utf8DecodeChar? 0 = some c :=
      List.utf8DecodeChar?_utf8Encode_cons
    rw [hsplit]
    obtain ⟨b, bs, hchar⟩ := List.exists_cons_of_ne_nil (List.ne_nil_of_length_pos (hlen ▸ hpos))
    rw [hchar, List.cons_append] at hdecode ⊢
    rw [fromUtf8, hdecode]
    have hdrop : (bs ++ utf8 s).drop (c.utf8Size - 1) = utf8 s := by
      have : c.utf8Size - 1 = bs.length := by rw [← hlen, hchar]; rfl
      rw [this]
      exact List.drop_left
    simp only [hdrop, ih]

/-- **A text is decoded from its encoding.** -/
theorem decode_encode (s : List Char) : decode (encode s) = s := by
  rw [decode, decodeBytes_encode, fromUtf8_utf8]

/-! ## What stays as it is -/

/-- A character that is its own encoding. -/
def plain (c : Char) : Bool := c.toNat < 128 && unreserved (UInt8.ofNat c.toNat)

theorem utf8EncodeChar_ascii {c : Char} (h : c.toNat < 128) :
    String.utf8EncodeChar c = [UInt8.ofNat c.toNat] := by
  have hsize : c.utf8Size = 1 := by
    rw [Char.utf8Size_eq_one_iff, UInt32.le_iff_toNat_le]
    change c.toNat ≤ 127
    omega
  rw [String.utf8EncodeChar_eq_singleton hsize]
  rfl

def encodeChar (c : Char) : List UInt8 := (String.utf8EncodeChar c).flatMap encodeByte

theorem encode_cons (c : Char) (s : List Char) : encode (c :: s) = encodeChar c ++ encode s := by
  unfold encode utf8 encodeChar
  rw [List.flatMap_cons, List.flatMap_append]

theorem encodeChar_of_plain {c : Char} (h : plain c = true) :
    encodeChar c = [UInt8.ofNat c.toNat] := by
  unfold plain at h
  rw [Bool.and_eq_true, decide_eq_true_eq] at h
  rw [encodeChar, utf8EncodeChar_ascii h.1]
  simp [encodeByte, h.2]

theorem length_encodeByte (b : UInt8) : 1 ≤ (encodeByte b).length := by
  unfold encodeByte
  split <;> simp

theorem length_le_length_flatMap (bs : List UInt8) :
    bs.length ≤ (bs.flatMap encodeByte).length := by
  induction bs with
  | nil => simp
  | cons b bs ih =>
    have := length_encodeByte b
    rw [List.flatMap_cons, List.length_append, List.length_cons]
    omega

theorem two_le_length_encodeChar {c : Char} (h : plain c = false) : 2 ≤ (encodeChar c).length := by
  unfold encodeChar
  by_cases hascii : c.toNat < 128
  · have hres : unreserved (UInt8.ofNat c.toNat) = false := by simpa [plain, hascii] using h
    rw [utf8EncodeChar_ascii hascii]
    simp [encodeByte, hres]
  · have hsize : 2 ≤ c.utf8Size := by
      have hpos := c.utf8Size_pos
      have hne : c.utf8Size ≠ 1 := by
        rw [Ne, Char.utf8Size_eq_one_iff, UInt32.le_iff_toNat_le]
        change ¬ c.toNat ≤ 127
        omega
      omega
    have hle := length_le_length_flatMap (String.utf8EncodeChar c)
    rw [String.length_utf8EncodeChar] at hle
    omega

theorem length_le_length_encode (s : List Char) : s.length ≤ (encode s).length := by
  induction s with
  | nil => simp
  | cons c s ih =>
    have hc : 1 ≤ (encodeChar c).length := by
      cases h : plain c with
      | true => rw [encodeChar_of_plain h]; simp
      | false =>
        have := two_le_length_encodeChar h
        omega
    rw [encode_cons, List.length_append, List.length_cons]
    omega

/-- **An encoding is as long as the text** just when all its characters are plain. -/
theorem length_encode_eq_iff (s : List Char) :
    (encode s).length = s.length ↔ ∀ c ∈ s, plain c = true := by
  induction s with
  | nil => simp [encode, utf8]
  | cons c s ih =>
    have hle := length_le_length_encode s
    rw [encode_cons, List.length_append, List.length_cons, List.forall_mem_cons, ← ih]
    cases h : plain c with
    | true =>
      rw [encodeChar_of_plain h, List.length_singleton]
      constructor
      · intro hlen
        exact ⟨rfl, by omega⟩
      · rintro ⟨-, hlen⟩
        omega
    | false =>
      have := two_le_length_encodeChar h
      simp only [Bool.false_eq_true, false_and, iff_false]
      omega

theorem encode_of_plain {s : List Char} (h : ∀ c ∈ s, plain c = true) :
    encode s = s.map fun c => UInt8.ofNat c.toNat := by
  induction s with
  | nil => rfl
  | cons c s ih =>
    rw [List.forall_mem_cons] at h
    rw [encode_cons, encodeChar_of_plain h.1, ih h.2]
    rfl

theorem zero_not_mem_encode (s : List Char) : 0 ∉ encode s := by
  intro h
  obtain ⟨b, -, hb⟩ := List.mem_flatMap.mp h
  have hlt := b.toNat_lt
  unfold encodeByte at hb
  split at hb
  · next hres =>
    rw [← List.mem_singleton.mp hb] at hres
    exact absurd hres (by decide)
  · rcases List.mem_cons.mp hb with h0 | hb
    · exact absurd h0 (by decide)
    · have hmem : (0 : UInt8) ∈ Hex.upper.ofBytes [b] := by simpa using hb
      exact absurd (Hex.upper.mem_chars_of_mem_ofBytes hmem) (by decide)

end Percent
