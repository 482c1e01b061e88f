import Mathlib.Data.List.AList

/-!
# Hashes keyed by row numbers

An integer-keyed hash that is meant to be a list: row `k` sits under key `k`.
`Holds s l` says that `s` is the list `l`.
-/

abbrev RowMap (α : Type*) := AList (fun _ : Nat => α)

namespace RowMap

variable {α : Type*}

def count (s : RowMap α) : Nat := s.keys.length

/-- `s` has the items of `l` under their positions, and no other key. -/
def Holds (s : RowMap α) (l : List α) : Prop := ∀ k, s.lookup k = l[k]?

theorem holds_empty : Holds (∅ : RowMap α) [] := by
  intro k
  simp

theorem holds_unique {s : RowMap α} {l l' : List α} (h : Holds s l) (h' : Holds s l') : l = l' := by
  apply List.ext_getElem?
  intro k
  rw [← h k, ← h' k]

theorem count_of_isSome {s : RowMap α} {n : Nat} (h : ∀ k, (s.lookup k).isSome ↔ k < n) :
    s.count = n := by
  have hkeys : s.keys.Perm (List.range n) := by
    rw [List.perm_ext_iff_of_nodup s.keys_nodup List.nodup_range]
    intro k
    rw [← AList.mem_keys, ← AList.lookup_isSome, h k, List.mem_range]
  simpa [count] using hkeys.length_eq

theorem holds_count {s : RowMap α} {l : List α} (h : Holds s l) : s.count = l.length := by
  apply count_of_isSome
  intro k
  rw [h k]
  simp

theorem holds_push {s : RowMap α} {l : List α} (h : Holds s l) (a : α) :
    Holds (s.insert l.length a) (l ++ [a]) := by
  intro j
  rcases eq_or_ne j l.length with rfl | hj
  · rw [AList.lookup_insert, List.getElem?_concat_length]
  · rw [AList.lookup_insert_ne hj, h j]
    rcases lt_or_gt_of_ne hj with hlt | hgt
    · rw [List.getElem?_append_left hlt]
    · rw [List.getElem?_eq_none (by omega), List.getElem?_eq_none (by simp; omega)]

end RowMap
