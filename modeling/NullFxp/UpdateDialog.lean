import Mathlib.Data.List.Lex
import NullFxp.QString

/-!
# Is there a newer version?

A version is a sequence of numbers with dots between them, and the later one is greater in the
lexicographic order. `hasUpdate` goes through the two sequences in step and answers at the first number
that is larger, also behind one that is smaller. A number from 2147483648 on is read as 0.
-/

open Text

namespace NullFxp.UpdateDialog

/-- The loop of `hasUpdate`, which ends with the shorter list. -/
def someLarger : List QString → List QString → Bool
  | cv :: cvs, lv :: lvs => if toInt lv > toInt cv then true else someLarger cvs lvs
  | _, _ => false

/-- The current version is a constant of the build. -/
def hasUpdate (currentVersion lastestVersion : QString) : Bool :=
  let cvs := currentVersion.splitOn '.'
  let lvs := lastestVersion.splitOn '.'
  if someLarger cvs lvs then true
  else if lvs.length > cvs.length then true
  else false

/-! ## Versions -/

/-- The value of a text of one digit or more. -/
def decimal (s : QString) : Option Nat := if s = [] then none else digitsVal 0 s

/-- `s` is written for the numbers `v`, and the last of them is not zero. -/
def IsVersion (s : QString) (v : List Nat) : Prop :=
  (s.splitOn '.').map decimal = v.map some ∧ v.getLast? ≠ some 0

instance (s : QString) (v : List Nat) : Decidable (IsVersion s v) :=
  inferInstanceAs (Decidable (_ ∧ _))

/-- What `toInt` makes of a number. -/
def asInt (n : Nat) : Nat := if n < 0x80000000 then n else 0

theorem toInt_of_decimal {s : QString} {n : Nat} (h : decimal s = some n) : toInt s = asInt n := by
  unfold decimal at h
  split at h
  · cases h
  · next hne =>
    rw [toInt, toNumber_digits _ _ hne h (digit_of_digitsVal h), asInt]
    split <;> split <;> omega

/-! ## What the loop answers -/

/-- At some place that both have, the number of the latest version is read as the larger. -/
def ReadLarger : List Nat → List Nat → Prop
  | c :: cs, l :: ls => asInt c < asInt l ∨ ReadLarger cs ls
  | _, _ => False

theorem someLarger_iff {cvs lvs : List QString} {c l : List Nat} (hc : cvs.map decimal = c.map some)
    (hl : lvs.map decimal = l.map some) : someLarger cvs lvs = true ↔ ReadLarger c l := by
  induction cvs generalizing lvs c l with
  | nil =>
    obtain rfl : c = [] := by simpa using hc.symm
    simp [someLarger, ReadLarger]
  | cons cv cvs ih =>
    obtain ⟨x, cs, rfl⟩ := List.exists_cons_of_ne_nil (show c ≠ [] by rintro rfl; simp at hc)
    rw [List.map_cons, List.map_cons, List.cons.injEq] at hc
    cases lvs with
    | nil =>
      obtain rfl : l = [] := by simpa using hl.symm
      simp [someLarger, ReadLarger]
    | cons lv lvs =>
      obtain ⟨y, ls, rfl⟩ := List.exists_cons_of_ne_nil (show l ≠ [] by rintro rfl; simp at hl)
      rw [List.map_cons, List.map_cons, List.cons.injEq] at hl
      unfold someLarger ReadLarger
      rw [toInt_of_decimal hc.1, toInt_of_decimal hl.1, ← ih hc.2 hl.2]
      split
      · simp; omega
      · simp; omega

theorem hasUpdate_eq {current latest : QString} {c l : List Nat} (hc : IsVersion current c)
    (hl : IsVersion latest l) :
    hasUpdate current latest = true ↔ ReadLarger c l ∨ c.length < l.length := by
  have hclen : (current.splitOn '.').length = c.length := by
    simpa using congrArg List.length hc.1
  have hllen : (latest.splitOn '.').length = l.length := by
    simpa using congrArg List.length hl.1
  rw [← someLarger_iff hc.1 hl.1]
  unfold hasUpdate
  simp only [hclen, hllen]
  cases someLarger (current.splitOn '.') (latest.splitOn '.') <;> simp

/-! ## When the answer is right -/

/-- What must hold of the current and the latest version from their first difference on. Where the
latest is larger, something must say so: a number that `toInt` can read, a later number, or more of
them. Where it is smaller, nothing may say the contrary. -/
def Told : List Nat → List Nat → Prop
  | c :: cs, l :: ls =>
    if c = l then Told cs ls
    else if c < l then l < 0x80000000 ∨ ReadLarger cs ls ∨ cs.length < ls.length
    else asInt l ≤ asInt c ∧ ¬ ReadLarger cs ls ∧ ls.length ≤ cs.length
  | _, _ => True

theorem asInt_lt_iff {c l : Nat} (h : c < l) : asInt c < asInt l ↔ l < 0x80000000 := by
  unfold asInt
  split <;> split <;> omega

theorem readLarger_iff_lt (c l : List Nat) :
    (ReadLarger c l ∨ c.length < l.length ↔ c < l) ↔ Told c l := by
  induction c generalizing l with
  | nil => cases l <;> simp [ReadLarger, Told]
  | cons x cs ih =>
    cases l with
    | nil => simp [ReadLarger, Told]
    | cons y ls =>
      unfold ReadLarger Told
      rw [List.cons_lt_cons_iff, List.length_cons, List.length_cons, Nat.add_lt_add_iff_right]
      rcases Nat.lt_trichotomy x y with hlt | rfl | hgt
      · rw [if_neg (by omega), if_pos hlt, asInt_lt_iff hlt]
        simp only [hlt, true_or, iff_true, or_assoc]
      · rw [if_pos rfl, ← ih]
        simp
      · rw [if_neg (by omega), if_neg (by omega)]
        simp only [show ¬ x < y by omega, show x ≠ y by omega, false_and, or_self, iff_false, not_or,
          not_lt, and_assoc]

/-- **When an update is announced exactly for a later version**, and that among versions of which it
is, it is announced never both ways, and in a chain. -/
theorem hasUpdate_iff (current latest next : QString) (c l n : List Nat) (hc : IsVersion current c)
    (hl : IsVersion latest l) (hn : IsVersion next n) :
    ((hasUpdate current latest = true ↔ c < l) ↔ Told c l) ∧
    (Told c l → Told l c → ¬ (hasUpdate current latest = true ∧ hasUpdate latest current = true)) ∧
    (Told c l → Told l n → Told c n → hasUpdate current latest = true →
      hasUpdate latest next = true → hasUpdate current next = true) := by
  simp only [hasUpdate_eq hc hl, hasUpdate_eq hl hc, hasUpdate_eq hl hn, hasUpdate_eq hc hn]
  refine ⟨readLarger_iff_lt c l, ?_, ?_⟩
  · rintro hcl hlc ⟨h, h'⟩
    rw [(readLarger_iff_lt c l).mpr hcl] at h
    rw [(readLarger_iff_lt l c).mpr hlc] at h'
    exact lt_asymm h h'
  · intro hcl hln hcn h h'
    rw [(readLarger_iff_lt c l).mpr hcl] at h
    rw [(readLarger_iff_lt l n).mpr hln] at h'
    exact ((readLarger_iff_lt c n).mpr hcn).mpr (h.trans h')

theorem hasUpdate_repaired : hasUpdate "2.5.8".toList "2.33.5".toList = true ∧
    ¬ hasUpdate "2.33.5".toList "2.5.1".toList = true := by
  have h := hasUpdate_iff "2.5.8".toList "2.33.5".toList "2.33.5".toList [2, 5, 8] [2, 33, 5]
    [2, 33, 5] (by decide) (by decide) (by decide)
  have h' := hasUpdate_iff "2.33.5".toList "2.5.1".toList "2.5.1".toList [2, 33, 5] [2, 5, 1]
    [2, 5, 1] (by decide) (by decide) (by decide)
  refine ⟨(h.1.mpr (by simp [Told])).mpr (by decide), fun hup => ?_⟩
  exact absurd ((h'.1.mpr (by simp [Told, ReadLarger, asInt])).mp hup) (by decide)

theorem hasUpdate_older : IsVersion "2.1.95".toList [2, 1, 95] ∧ IsVersion "1.9".toList [1, 9] ∧
    hasUpdate "2.1.95".toList "1.9".toList = true ∧ ¬ [2, 1, 95] < [1, 9] ∧
    hasUpdate "1.9".toList "2.1.95".toList = true := by
  -- The build's own version is 2.1.95. The older 1.9 is announced to its user, and it to a user of
  -- 1.9.
  decide

end NullFxp.UpdateDialog
