import Mathlib.Data.List.Nodup
import Mathlib.Data.List.Perm.Basic

/-!
# Lists of pairs with a key each

The first pair with a key is the only one, when no key is there twice.
-/

open scoped List

namespace Assoc

variable {α β : Type*} [DecidableEq α] {es : List (α × β)}

theorem find_of_mem (hnd : (es.map Prod.fst).Nodup) {e : α × β} (he : e ∈ es) :
    es.find? (fun e' => e'.1 = e.1) = some e := by
  rw [List.find?_eq_some_iff_append]
  obtain ⟨before, after, rfl⟩ := List.append_of_mem he
  refine ⟨by simp, before, after, rfl, fun e' hmem => ?_⟩
  rw [List.map_append, List.map_cons, List.nodup_append] at hnd
  have hne := hnd.2.2 e'.1 (List.mem_map_of_mem hmem) e.1 List.mem_cons_self
  simpa using hne

/-- The value of a key. -/
def value (es : List (α × β)) (key : α) : Option β := (es.find? fun e => e.1 = key).map Prod.snd

theorem value_eq_some_iff (hnd : (es.map Prod.fst).Nodup) {key : α} {b : β} :
    value es key = some b ↔ (key, b) ∈ es := by
  rw [value, Option.map_eq_some_iff]
  constructor
  · rintro ⟨e, hfind, rfl⟩
    have hkey : e.1 = key := by simpa using List.find?_some hfind
    subst hkey
    exact List.mem_of_find?_eq_some hfind
  · intro hmem
    exact ⟨_, find_of_mem hnd hmem, rfl⟩

theorem value_cons (e : α × β) (es : List (α × β)) (key : α) :
    value (e :: es) key = if e.1 = key then some e.2 else value es key := by
  unfold value
  split
  · next h => rw [List.find?_cons_of_pos (by simpa using h), Option.map_some]
  · next h => rw [List.find?_cons_of_neg (by simpa using h)]

theorem value_perm {es' : List (α × β)} (h : es ~ es') (hnd : (es.map Prod.fst).Nodup) (key : α) :
    value es key = value es' key := by
  ext b
  have hnd' := (h.map Prod.fst).nodup_iff.mp hnd
  rw [value_eq_some_iff hnd, value_eq_some_iff hnd']
  exact h.mem_iff

/-! ## Changing a value, taking a key out -/

def modify (es : List (α × β)) (key : α) (f : β → β) : List (α × β) :=
  es.map fun e => if e.1 = key then (e.1, f e.2) else e

def remove (es : List (α × β)) (key : α) : List (α × β) := es.filter fun e => e.1 ≠ key

theorem mem_modify {key : α} {f : β → β} {e : α × β} :
    e ∈ modify es key f ↔ (e ∈ es ∧ e.1 ≠ key) ∨ ∃ b, (key, b) ∈ es ∧ e = (key, f b) := by
  rw [modify, List.mem_map]
  constructor
  · rintro ⟨⟨k, b⟩, hmem, rfl⟩
    by_cases h : k = key
    · subst h
      exact .inr ⟨b, hmem, if_pos rfl⟩
    · rw [if_neg h]
      exact .inl ⟨hmem, h⟩
  · rintro (⟨hmem, hne⟩ | ⟨b, hmem, rfl⟩)
    · exact ⟨e, hmem, if_neg hne⟩
    · exact ⟨(key, b), hmem, if_pos rfl⟩

theorem mem_remove {key : α} {e : α × β} : e ∈ remove es key ↔ e ∈ es ∧ e.1 ≠ key := by
  simp [remove]

theorem map_modify {γ : Type*} (g : α × β → γ) {key : α} {f : β → β}
    (h : ∀ b, (key, b) ∈ es → g (key, f b) = g (key, b)) :
    (modify es key f).map g = es.map g := by
  rw [modify, List.map_map]
  apply List.map_congr_left
  rintro ⟨k, b⟩ hmem
  by_cases hk : k = key
  · subst hk
    simpa using h b hmem
  · simp [hk]

theorem value_isSome {key : α} : (value es key).isSome ↔ key ∈ es.map Prod.fst := by
  induction es with
  | nil => simp [value]
  | cons e es ih =>
    rw [value_cons, List.map_cons, List.mem_cons]
    split
    · next h => simp [h]
    · next h => rw [ih, or_iff_right (Ne.symm h)]

theorem value_remove (es : List (α × β)) (key k : α) :
    value (remove es key) k = if k = key then none else value es k := by
  unfold value remove
  rw [List.find?_filter]
  split
  · next h =>
    subst h
    simp
  · next h =>
    congr 2
    funext e
    by_cases he : e.1 = k
    · simp [he, h]
    · simp [he]

theorem value_modify (es : List (α × β)) (key : α) (f : β → β) (k : α) :
    value (modify es key f) k = if k = key then (value es k).map f else value es k := by
  induction es with
  | nil => simp [value, modify]
  | cons e es ih =>
    rw [modify, List.map_cons, value_cons, ← modify, ih, value_cons]
    by_cases he : e.1 = key <;> by_cases hk : k = key <;> by_cases hek : e.1 = k <;> simp_all

theorem keys_remove (es : List (α × β)) (key : α) :
    (remove es key).map Prod.fst = (es.map Prod.fst).filter (· ≠ key) := by
  rw [remove, List.filter_map]
  rfl

omit [DecidableEq α] in
theorem eq_of_mem (hnd : (es.map Prod.fst).Nodup) {key : α} {b c : β} (hb : (key, b) ∈ es)
    (hc : (key, c) ∈ es) : b = c :=
  congrArg Prod.snd (List.inj_on_of_nodup_map hnd hb hc rfl)

end Assoc
