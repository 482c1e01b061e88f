import NullFxp.QString

/-!
# Maps from texts to texts
-/

namespace NullFxp

/-- A `QMap<QString, QString>`: the value of each key that it has. -/
abbrev QMap := QString → Option QString

namespace QMap

def empty : QMap := fun _ => none

/-- `m[key] = value` -/
def insert (m : QMap) (key : String) (value : QString) : QMap :=
  fun k => if k = key.toList then some value else m k

/-- `m[key]` of a map that is not changed by it -/
def value (m : QMap) (key : String) : QString := (m key.toList).getD []

def contains (m : QMap) (key : String) : Bool := (m key.toList).isSome

theorem value_insert (m : QMap) (key : String) (v : QString) (key' : String) :
    (m.insert key v).value key' = if key' = key then v else m.value key' := by
  unfold value insert
  by_cases h : key' = key
  · rw [h]
    simp
  · have hne : key'.toList ≠ key.toList := fun heq => h (String.toList_inj.mp heq)
    simp [h, hne]

theorem insert_self (m : QMap) (key : String) (v : QString) : m.insert key v key.toList = some v :=
  if_pos rfl

theorem insert_of_ne {key : String} {k : QString} (h : k ≠ key.toList) (m : QMap) (v : QString) :
    m.insert key v k = m k :=
  if_neg h

theorem insert_of_eq {m : QMap} {key : String} {v : QString} (h : m key.toList = some v) :
    m.insert key v = m := by
  funext k
  unfold insert
  split
  · next hk => rw [hk, h]
  · rfl

end QMap

end NullFxp
