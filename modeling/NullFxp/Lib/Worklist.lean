import Mathlib.Data.List.Flatten
import Mathlib.Data.List.Perm.Basic

/-!
# Worklists that grow while they are worked off

The first item is taken from the front, and the items that it leads to go to the end.
-/

open scoped List

namespace Worklist

variable {α : Type*} (next : α → List α)

/-- `Visits next queue order`: working off `queue` takes the items in `order`. -/
inductive Visits : List α → List α → Prop where
  | nil : Visits [] []
  | cons {a : α} {queue order : List α} :
      Visits (queue ++ next a) order → Visits (a :: queue) (a :: order)

/-- What an item leads to in the end, itself first. -/
def Closed (all : α → List α) : Prop := ∀ a, all a = a :: (next a).flatMap all

variable {next}

theorem Closed.visits {all : α → List α} (hall : Closed next all) (queue : List α) :
    ∃ order, Visits next queue order := by
  -- Every item taken makes what is left to visit shorter by one.
  generalize hn : (queue.flatMap all).length = n
  induction n generalizing queue with
  | zero =>
    cases queue with
    | nil => exact ⟨[], .nil⟩
    | cons a queue => simp [hall a] at hn
  | succ n ih =>
    cases queue with
    | nil => simp at hn
    | cons a queue =>
      have hlen : ((queue ++ next a).flatMap all).length = n := by
        simp only [List.flatMap_cons, hall a, List.length_append, List.length_cons] at hn
        simp only [List.flatMap_append, List.length_append]
        omega
      obtain ⟨order, horder⟩ := ih (queue ++ next a) hlen
      exact ⟨a :: order, .cons horder⟩

theorem Visits.perm {all : α → List α} (hall : Closed next all) {queue order : List α}
    (h : Visits next queue order) : order ~ queue.flatMap all := by
  induction h with
  | nil => rfl
  | @cons a queue order _ ih =>
    calc a :: order
      _ ~ a :: (queue ++ next a).flatMap all := ih.cons a
      _ = a :: (queue.flatMap all ++ (next a).flatMap all) := by rw [List.flatMap_append]
      _ ~ a :: ((next a).flatMap all ++ queue.flatMap all) := List.perm_append_comm.cons a
      _ = (a :: queue).flatMap all := by simp [hall a]

theorem Visits.after_parent {queue order : List α} (h : Visits next queue order)
    {l₁ l₂ : List α} {a : α} (ha : order = l₁ ++ a :: l₂) :
    a ∈ queue ∨ ∃ p ∈ l₁, a ∈ next p := by
  induction h generalizing l₁ with
  | nil => simp at ha
  | @cons b queue order _ ih =>
    cases l₁ with
    | nil =>
      obtain ⟨rfl, -⟩ : b = a ∧ order = l₂ := by simpa using ha
      exact .inl List.mem_cons_self
    | cons c l₁ =>
      obtain ⟨rfl, horder⟩ : b = c ∧ order = l₁ ++ a :: l₂ := by simpa using ha
      rcases ih horder with hmem | ⟨p, hp, hap⟩
      · rcases List.mem_append.mp hmem with hq | hn
        · exact .inl (List.mem_cons_of_mem b hq)
        · exact .inr ⟨b, List.mem_cons_self, hn⟩
      · exact .inr ⟨p, List.mem_cons_of_mem b hp, hap⟩

end Worklist
