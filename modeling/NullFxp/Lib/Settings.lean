import Mathlib.Data.List.AList
import Mathlib.Data.List.Dedup

/-!
# Settings in groups

A settings file has values under paths. The last part of a path is the key, and those before it are the
groups that it is in.
-/

abbrev Settings (α β : Type*) := AList (fun _ : List α => β)

namespace Settings

variable {α β : Type*} [DecidableEq α]

def value (s : Settings α β) (group : List α) (key : α) : Option β := s.lookup (group ++ [key])

def setValue (s : Settings α β) (group : List α) (key : α) (value : β) : Settings α β :=
  s.insert (group ++ [key]) value

/-- The group right below `group` that a path leads through. -/
def childGroup (group path : List α) : Option α :=
  if group <+: path then
    match path.drop group.length with
    | child :: _ :: _ => some child
    | _ => none
  else none

def childGroups (s : Settings α β) (group : List α) : List α :=
  (s.keys.filterMap (childGroup group)).dedup

theorem childGroup_eq_some {group path : List α} {child : α} :
    childGroup group path = some child ↔ ∃ key rest, path = group ++ child :: key :: rest := by
  unfold childGroup
  constructor
  · intro h
    split at h
    · next hpre =>
      obtain ⟨rest, rfl⟩ := hpre
      rw [List.drop_left] at h
      split at h
      · next c key rest =>
        obtain rfl := Option.some.inj h
        exact ⟨key, rest, rfl⟩
      · cases h
    · cases h
  · rintro ⟨key, rest, rfl⟩
    rw [if_pos (List.prefix_append _ _), List.drop_left]

theorem mem_childGroups {s : Settings α β} {group : List α} {child : α} :
    child ∈ s.childGroups group ↔ ∃ key rest, group ++ child :: key :: rest ∈ s := by
  simp only [childGroups, List.mem_dedup, List.mem_filterMap, childGroup_eq_some, AList.mem_keys]
  constructor
  · rintro ⟨path, hpath, key, rest, rfl⟩
    exact ⟨key, rest, hpath⟩
  · rintro ⟨key, rest, h⟩
    exact ⟨_, h, key, rest, rfl⟩

theorem childGroups_nodup (s : Settings α β) (group : List α) : (s.childGroups group).Nodup :=
  List.nodup_dedup _

end Settings
