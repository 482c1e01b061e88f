import Mathlib.Data.List.GetD
import Mathlib.Data.List.Induction
import Mathlib.Data.List.Nodup

/-!
# Bytes as pairs of digits

A set of sixteen digits gives every byte two of them, the upper half first.
-/

namespace Hex

structure Digits where
  chars : List UInt8
  length_eq : chars.length = 16
  nodup : chars.Nodup

/-- `0123456789ABCDEF` -/
def upper : Digits where
  chars := [48, 49, 50, 51, 52, 53, 54, 55, 56, 57, 65, 66, 67, 68, 69, 70]
  length_eq := rfl
  nodup := by decide

/-- `0123456789abcdef` -/
def lower : Digits where
  chars := [48, 49, 50, 51, 52, 53, 54, 55, 56, 57, 97, 98, 99, 100, 101, 102]
  length_eq := rfl
  nodup := by decide

namespace Digits

variable (D : Digits)

def digit (n : Nat) : UInt8 := D.chars.getD n 0

def ofByte (b : UInt8) : List UInt8 :=
  [D.digit ((b &&& 0xF0) >>> 4).toNat, D.digit (b &&& 0x0F).toNat]

def ofBytes (bs : List UInt8) : List UInt8 := bs.flatMap D.ofByte

/-! ## Halves of a byte -/

theorem toNat_lowHalf (b : UInt8) : (b &&& 0x0F).toNat = b.toNat % 16 := by
  rw [UInt8.toNat_and]
  exact Nat.and_two_pow_sub_one_eq_mod b.toNat 4

theorem toNat_highHalf (b : UInt8) : ((b &&& 0xF0) >>> 4).toNat = b.toNat / 16 := by
  have hb := b.toNat_lt
  have hmask : b.toNat >>> 4 &&& 15 = b.toNat / 16 % 16 := by
    rw [Nat.shiftRight_eq_div_pow]
    exact Nat.and_two_pow_sub_one_eq_mod (b.toNat / 16) 4
  rw [UInt8.toNat_shiftRight, UInt8.toNat_and]
  change (b.toNat &&& 240) >>> 4 = b.toNat / 16
  rw [Nat.shiftRight_and_distrib]
  change b.toNat >>> 4 &&& 15 = b.toNat / 16
  omega

/-! ## Digits -/

theorem digit_mem {n : Nat} (h : n < 16) : D.digit n ∈ D.chars := by
  have hlt : n < D.chars.length := by rw [D.length_eq]; exact h
  rw [digit, List.getD_eq_getElem _ _ hlt]
  exact List.getElem_mem hlt

theorem idxOf_digit {n : Nat} (h : n < 16) : D.chars.idxOf (D.digit n) = n := by
  have hlt : n < D.chars.length := by rw [D.length_eq]; exact h
  rw [digit, List.getD_eq_getElem _ _ hlt]
  exact D.nodup.idxOf_getElem n hlt

theorem ofByte_eq (b : UInt8) : D.ofByte b = [D.digit (b.toNat / 16), D.digit (b.toNat % 16)] := by
  rw [ofByte, toNat_highHalf, toNat_lowHalf]

theorem mem_chars_of_mem_ofBytes {bs : List UInt8} {c : UInt8} (h : c ∈ D.ofBytes bs) :
    c ∈ D.chars := by
  obtain ⟨b, -, hc⟩ := List.mem_flatMap.mp h
  have hb := b.toNat_lt
  rw [ofByte_eq, List.mem_pair] at hc
  rcases hc with rfl | rfl
  · exact D.digit_mem (by omega)
  · exact D.digit_mem (by omega)

@[simp]
theorem ofBytes_nil : D.ofBytes [] = [] := rfl

@[simp]
theorem ofBytes_cons (b : UInt8) (bs : List UInt8) :
    D.ofBytes (b :: bs) = D.ofByte b ++ D.ofBytes bs := rfl

@[simp]
theorem length_ofByte (b : UInt8) : (D.ofByte b).length = 2 := rfl

@[simp]
theorem length_ofBytes (bs : List UInt8) : (D.ofBytes bs).length = 2 * bs.length := by
  induction bs with
  | nil => rfl
  | cons b bs ih =>
    rw [ofBytes_cons, List.length_append, length_ofByte, ih, List.length_cons]
    omega

end Digits

/-! ## Reading digits -/

/-- The value of a digit in either case -/
def value (c : UInt8) : Option UInt8 :=
  if 48 ≤ c ∧ c ≤ 57 then some (c - 48)
  else if 97 ≤ c ∧ c ≤ 102 then some (c - 97 + 10)
  else if 65 ≤ c ∧ c ≤ 70 then some (c - 65 + 10)
  else none

/-- The bytes of the digits, the last digit first. -/
def ofValues : List UInt8 → List UInt8
  | [] => []
  | [lo] => [lo]
  | lo :: hi :: rest => (lo ||| hi <<< 4) :: ofValues rest

/-- Digits are taken in pairs from the end on. What is no digit does not count. -/
def fromHex (hex : List UInt8) : List UInt8 := (ofValues (hex.reverse.filterMap value)).reverse

theorem value_lower : ∀ n < 16, value (lower.digit n) = some (UInt8.ofNat n) := by decide

theorem join_halves (b : UInt8) :
    UInt8.ofNat (b.toNat % 16) ||| UInt8.ofNat (b.toNat / 16) <<< 4 = b := by
  have hb := b.toNat_lt
  have hfour : (4 : UInt8).toNat % 8 = 4 := rfl
  have hlow : b.toNat % 16 % 256 = b.toNat % 16 := by omega
  have hhigh : (b.toNat / 16 % 256 * 2 ^ 4) % 256 = 2 ^ 4 * (b.toNat / 16) := by omega
  apply UInt8.toNat_inj.mp
  rw [UInt8.toNat_or, UInt8.toNat_shiftLeft, UInt8.toNat_ofNat', UInt8.toNat_ofNat', hfour,
    Nat.shiftLeft_eq]
  change b.toNat % 16 % 256 ||| b.toNat / 16 % 256 * 2 ^ 4 % 256 = b.toNat
  rw [hlow, hhigh, Nat.or_comm, ← Nat.two_pow_add_eq_or_of_lt (show b.toNat % 16 < 2 ^ 4 by omega)]
  omega

/-- **Bytes are read back from their digits.** -/
theorem fromHex_ofBytes (bs : List UInt8) : fromHex (lower.ofBytes bs) = bs := by
  induction bs using List.reverseRecOn with
  | nil => rfl
  | append_singleton bs b ih =>
    have hb := b.toNat_lt
    have hsplit : lower.ofBytes (bs ++ [b]) = lower.ofBytes bs ++ lower.ofByte b := by
      simp [Digits.ofBytes]
    unfold fromHex at ih ⊢
    rw [hsplit, Digits.ofByte_eq, List.reverse_append, List.filterMap_append]
    simp only [List.reverse_cons, List.reverse_nil, List.nil_append, List.cons_append,
      List.filterMap_cons, List.filterMap_nil, value_lower _ (show b.toNat % 16 < 16 by omega),
      value_lower _ (show b.toNat / 16 < 16 by omega)]
    rw [ofValues, List.reverse_cons, ih, join_halves]

end Hex
