import Mathlib.Data.Nat.Bitwise

/-!
# Flags in a word

A table translates the flags of one enumeration into those of another: for every pair of which the
word has the first, the result has the second.
-/

namespace Bits

/-- `if (word & bit) result |= out`, for each pair -/
def grants : List (Nat × Nat) → Nat → Nat
  | [], _ => 0
  | (bit, out) :: table, word => (if word &&& bit ≠ 0 then out else 0) ||| grants table word

/-- The pairs that the second table makes of the results of the first one. -/
def compose (t u : List (Nat × Nat)) : List (Nat × Nat) :=
  u.flatMap fun e => (t.filter fun d => d.2 &&& e.1 ≠ 0).map fun d => (d.1, e.2)

theorem and_ne_zero_iff {m n : Nat} :
    m &&& n ≠ 0 ↔ ∃ i, m.testBit i = true ∧ n.testBit i = true := by
  constructor
  · intro h
    obtain ⟨i, hi⟩ := Nat.exists_testBit_of_ne_zero h
    exact ⟨i, by simpa using hi⟩
  · rintro ⟨i, hm, hn⟩ h
    have hi : (m &&& n).testBit i = true := by rw [Nat.testBit_and, hm, hn, Bool.and_self]
    simp [h] at hi

theorem testBit_grants (table : List (Nat × Nat)) (word i : Nat) :
    (grants table word).testBit i = true ↔
      ∃ e ∈ table, word &&& e.1 ≠ 0 ∧ e.2.testBit i = true := by
  induction table with
  | nil => simp [grants]
  | cons e table ih =>
    simp only [grants, Nat.testBit_or, Bool.or_eq_true, ih, List.mem_cons, exists_eq_or_imp]
    by_cases h : word &&& e.1 = 0 <;> simp [h]

theorem grants_and_ne_zero_iff (table : List (Nat × Nat)) (word n : Nat) :
    grants table word &&& n ≠ 0 ↔ ∃ e ∈ table, word &&& e.1 ≠ 0 ∧ e.2 &&& n ≠ 0 := by
  simp only [and_ne_zero_iff (m := grants table word), testBit_grants]
  constructor
  · rintro ⟨i, ⟨e, he, hword, hi⟩, hn⟩
    exact ⟨e, he, hword, and_ne_zero_iff.mpr ⟨i, hi, hn⟩⟩
  · rintro ⟨e, he, hword, hn⟩
    obtain ⟨i, hi, hni⟩ := and_ne_zero_iff.mp hn
    exact ⟨i, ⟨e, he, hword, hi⟩, hni⟩

theorem mem_compose {t u : List (Nat × Nat)} {a c : Nat} :
    (a, c) ∈ compose t u ↔ ∃ d ∈ t, ∃ e ∈ u, d.1 = a ∧ d.2 &&& e.1 ≠ 0 ∧ e.2 = c := by
  simp only [compose, List.mem_flatMap, List.mem_map, List.mem_filter, Prod.mk.injEq,
    decide_eq_true_eq]
  constructor
  · rintro ⟨e, he, d, ⟨hd, hde⟩, rfl, rfl⟩
    exact ⟨d, hd, e, he, rfl, hde, rfl⟩
  · rintro ⟨d, hd, e, he, rfl, hde, rfl⟩
    exact ⟨e, he, d, ⟨hd, hde⟩, rfl, rfl⟩

/-- **Two tables one after the other are one table.** -/
theorem grants_grants (t u : List (Nat × Nat)) (word : Nat) :
    grants u (grants t word) = grants (compose t u) word := by
  apply Nat.eq_of_testBit_eq
  intro i
  rw [Bool.eq_iff_iff, testBit_grants, testBit_grants]
  constructor
  · rintro ⟨e, he, hand, hi⟩
    obtain ⟨d, hd, hword, hde⟩ := (grants_and_ne_zero_iff t word e.1).mp hand
    exact ⟨(d.1, e.2), mem_compose.mpr ⟨d, hd, e, he, rfl, hde, rfl⟩, hword, hi⟩
  · rintro ⟨⟨a, c⟩, hac, hword, hi⟩
    obtain ⟨d, hd, e, he, rfl, hde, rfl⟩ := mem_compose.mp hac
    exact ⟨e, he, (grants_and_ne_zero_iff t word e.1).mpr ⟨d, hd, hword, hde⟩, hi⟩

theorem grants_eq_of_forall₂ {t u : List (Nat × Nat)} {word : Nat}
    (h : List.Forall₂ (fun d e => (word &&& d.1 ≠ 0 ↔ word &&& e.1 ≠ 0) ∧ d.2 = e.2) t u) :
    grants t word = grants u word := by
  induction h with
  | nil => rfl
  | cons hde _ ih =>
    unfold grants
    simp only [hde.1, hde.2, ih]

theorem grants_or {table : List (Nat × Nat)} {other : Nat}
    (h : ∀ e ∈ table, other &&& e.1 = 0) (word : Nat) :
    grants table (other ||| word) = grants table word := by
  induction table with
  | nil => rfl
  | cons e table ih =>
    rw [List.forall_mem_cons] at h
    unfold grants
    rw [Nat.and_or_distrib_right, h.1, Nat.zero_or, ih h.2]

/-! ## Single bits -/

theorem and_two_pow_ne_zero_iff (m k : Nat) : m &&& 2 ^ k ≠ 0 ↔ m / 2 ^ k % 2 = 1 := by
  rw [Nat.and_two_pow, Nat.testBit_eq_decide_div_mod_eq]
  by_cases h : m / 2 ^ k % 2 = 1 <;> simp [h]

/-- A table that keeps some of the bits. -/
def keeping (ks : List Nat) : List (Nat × Nat) := ks.map fun k => (2 ^ k, 2 ^ k)

theorem testBit_keeping (ks : List Nat) (word i : Nat) :
    (grants (keeping ks) word).testBit i = true ↔ i ∈ ks ∧ word.testBit i = true := by
  rw [testBit_grants]
  simp only [keeping, List.mem_map, exists_exists_and_eq_and, and_ne_zero_iff,
    Nat.testBit_two_pow, decide_eq_true_eq]
  constructor
  · rintro ⟨k, hk, ⟨j, hj, rfl⟩, rfl⟩
    exact ⟨hk, hj⟩
  · rintro ⟨hi, hword⟩
    exact ⟨i, hi, ⟨i, hword, rfl⟩, rfl⟩

end Bits
