import NullFxp.Lib.Text

/-!
# Strings and paths

A `QString` is its characters. Names in a path are what stands between two slashes.
-/

namespace NullFxp

abbrev QString := List Char

instance : LawfulBEq QString := inferInstanceAs (LawfulBEq (List Char))

/-- `path + "/" + name` -/
def childPath (path name : QString) : QString := path ++ '/' :: name

/-- `path.split("/").at(path.split("/").count() - 1)` -/
def lastPart (path : QString) : QString := (path.splitOn '/').getLastD []

/-- The names along a path. Repeated and trailing slashes do not count. -/
def components (path : QString) : List QString := (path.splitOn '/').filter (· ≠ [])

/-- `line.split(" ", QString::SkipEmptyParts)` -/
def fields (line : QString) : List QString := (line.splitOn ' ').filter (· ≠ [])

/-- A name that a directory entry can have. -/
def IsName (name : QString) : Prop := name ≠ [] ∧ '/' ∉ name ∧ name ≠ ['.'] ∧ name ≠ ['.', '.']

instance (name : QString) : Decidable (IsName name) :=
  inferInstanceAs (Decidable (_ ∧ _ ∧ _ ∧ _))

theorem slash_not_mem_of_mem_splitOn {path part : QString} (h : part ∈ path.splitOn '/') :
    '/' ∉ part := (Text.of_mem_splitOn h).1

theorem lastPart_mem (path : QString) : lastPart path ∈ path.splitOn '/' := by
  have hne : path.splitOn '/' ≠ [] := List.splitOn_ne_nil _ _
  rw [lastPart, List.getLastD_eq_getLast?, List.getLast?_eq_some_getLast hne, Option.getD_some]
  exact List.getLast_mem hne

theorem slash_not_mem_lastPart (path : QString) : '/' ∉ lastPart path :=
  slash_not_mem_of_mem_splitOn (lastPart_mem path)

theorem lastPart_mem_components {path : QString} (h : lastPart path ≠ []) :
    lastPart path ∈ components path :=
  List.mem_filter.mpr ⟨lastPart_mem path, by simpa using h⟩

theorem lastPart_childPath (path name : QString) (h : '/' ∉ name) :
    lastPart (childPath path name) = name := by
  rw [lastPart, childPath, List.splitOn_append_cons_self, List.splitOn_eq_singleton h]
  simp

theorem components_childPath (path name : QString) (h : IsName name) :
    components (childPath path name) = components path ++ [name] := by
  rw [components, childPath, List.splitOn_append_cons_self, List.splitOn_eq_singleton h.2.1,
    List.filter_append]
  simp [components, h.1]

end NullFxp
