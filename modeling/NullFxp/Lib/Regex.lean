import Mathlib.Data.List.Basic

/-!
# Patterns with groups

Repetitions are of one character and take as many as they can; the first alternative comes first.
Groups are not nested, and a group is where it begins and how long it is.
-/

namespace Regex

inductive Pat where
  | one (p : Char → Bool)
  | many (p : Char → Bool)
  | seq (a b : Pat)
  | alt (a b : Pat)
  | group (a : Pat)
  /-- `$` -/
  | stop

namespace Pat

def chr (c : Char) : Pat := .one (· == c)

def plus (p : Char → Bool) : Pat := .seq (.one p) (.many p)

def ofList : List Pat → Pat
  | [] => .many fun _ => false
  | [a] => a
  | a :: as => .seq a (ofList as)

/-- `{n,n}` -/
def times (n : Nat) (a : Pat) : Pat := ofList (List.replicate n a)

def word (s : String) : Pat := ofList (s.toList.map chr)

end Pat

abbrev Groups := List (Nat × Nat)

variable {γ : Type*}

/-- `many p` at place `i`, where `s` is what stands there; `k` is what comes after it. -/
def longest (p : Char → Bool) (k : Nat → Option γ) : List Char → Nat → Option γ
  | [], i => k i
  | c :: s, i => if p c then (longest p k s (i + 1)).or (k i) else k i

/-- The pattern at place `i` of `s`, with the groups so far; `k` is what comes after it. -/
def Pat.matchAt (s : List Char) : Pat → Nat → Groups → (Nat → Groups → Option γ) → Option γ
  | .one p, i, g, k => s[i]?.bind fun c => if p c then k (i + 1) g else none
  | .many p, i, g, k => longest p (fun j => k j g) (s.drop i) i
  | .seq a b, i, g, k => a.matchAt s i g fun j g => b.matchAt s j g k
  | .alt a b, i, g, k => (a.matchAt s i g k).or (b.matchAt s i g k)
  | .group a, i, g, k => a.matchAt s i g fun j g => k j (g ++ [(i, j - i)])
  | .stop, i, g, k => if i = s.length then k i g else none

/-- Where the whole match and its groups are, for a match that begins at place `i`. -/
def Pat.groupsAt (a : Pat) (s : List Char) (i : Nat) : Option Groups :=
  a.matchAt s i [] fun j g => some ((i, j - i) :: g)

def text (s : List Char) (g : Nat × Nat) : List Char := (s.drop g.1).take g.2

theorem text_sublist (s : List Char) (g : Nat × Nat) : (text s g).Sublist s :=
  (List.take_sublist _ _).trans (List.drop_sublist _ _)

/-- `capturedTexts` of a pattern that begins with `^` -/
def Pat.captured (a : Pat) (s : List Char) : Option (List (List Char)) :=
  (a.groupsAt s 0).map fun g => g.map (text s)

/-- `capturedTexts` of the first match anywhere. -/
def Pat.find (a : Pat) (s : List Char) : Option (List (List Char)) :=
  (List.range (s.length + 1)).findSome? fun i => (a.groupsAt s i).map fun g => g.map (text s)

theorem mem_captured {a : Pat} {s t : List Char} {ts : List (List Char)}
    (h : a.captured s = some ts) (ht : t ∈ ts) : t.Sublist s := by
  obtain ⟨g, -, rfl⟩ := Option.map_eq_some_iff.mp h
  obtain ⟨x, -, rfl⟩ := List.mem_map.mp ht
  exact text_sublist s x

end Regex
