import Mathlib.Data.List.Flatten
import Mathlib.Data.List.Nodup
import Mathlib.Data.List.Perm.Basic
import Mathlib.Logic.Relation

/-!
# Walks with a stack

The item on top is taken, and the items that it leads to are pushed one after the other, so the
last of them is on top next. A walk runs on fuel: `none` says that the stack was not empty in time.
-/

open scoped List

namespace StackWalk

variable {α : Type*} (next : α → List α)

/-- The items in the order in which they are taken. -/
def walk : Nat → List α → Option (List α)
  | _, [] => some []
  | 0, _ :: _ => none
  | fuel + 1, a :: stack => (walk fuel ((next a).reverse ++ stack)).map (a :: ·)

/-- `all` lists what an item leads to in the end, in some order. -/
def Lists (S : Set α) (all : α → List α) : Prop :=
  ∀ a ∈ S, all a ~ a :: (next a).flatMap all

variable {next}

theorem Lists.walk_perm {S : Set α} {all : α → List α} (hall : Lists next S all)
    (hnext : ∀ a ∈ S, ∀ b ∈ next a, b ∈ S) {fuel : Nat} {stack : List α} (hstack : ∀ a ∈ stack, a ∈ S)
    (hfuel : (stack.flatMap all).length ≤ fuel) :
    ∃ order, walk next fuel stack = some order ∧ order ~ stack.flatMap all := by
  induction fuel generalizing stack with
  | zero =>
    cases stack with
    | nil => exact ⟨[], rfl, List.Perm.refl _⟩
    | cons a stack =>
      have hlen := (hall a (hstack a List.mem_cons_self)).length_eq
      simp only [List.flatMap_cons, List.length_append, List.length_cons] at hfuel hlen
      omega
  | succ fuel ih =>
    cases stack with
    | nil => exact ⟨[], rfl, List.Perm.refl _⟩
    | cons a stack =>
      have ha := hstack a List.mem_cons_self
      have hrest : ((next a).reverse ++ stack).flatMap all ~ (next a ++ stack).flatMap all :=
        ((next a).reverse_perm.append_right stack).flatMap_right all
      have hcons : (a :: stack).flatMap all ~ a :: ((next a).reverse ++ stack).flatMap all := by
        calc (a :: stack).flatMap all
          _ = all a ++ stack.flatMap all := List.flatMap_cons
          _ ~ a :: (next a).flatMap all ++ stack.flatMap all := (hall a ha).append_right _
          _ = a :: (next a ++ stack).flatMap all := by rw [List.cons_append, List.flatMap_append]
          _ ~ a :: ((next a).reverse ++ stack).flatMap all := (hrest.symm).cons a
      have hpushed : ∀ b ∈ (next a).reverse ++ stack, b ∈ S := by
        intro b hb
        rcases List.mem_append.mp hb with hb | hb
        · exact hnext a ha b (List.mem_reverse.mp hb)
        · exact hstack b (List.mem_cons_of_mem a hb)
      have hless : (((next a).reverse ++ stack).flatMap all).length ≤ fuel := by
        have hlen := hcons.length_eq
        rw [List.length_cons] at hlen
        omega
      obtain ⟨order, horder, hperm⟩ := ih hpushed hless
      refine ⟨a :: order, ?_, (hperm.cons a).trans hcons.symm⟩
      rw [walk, horder, Option.map_some]

/-! ## What a walk takes -/

variable (next) in
/-- `b` is one of the items that `a` leads to in the end. -/
def Reach : α → α → Prop := Relation.ReflTransGen fun a b => b ∈ next a

theorem reach_refl (a : α) : Reach next a a := .refl

theorem reach_head {a b c : α} (hab : b ∈ next a) (hbc : Reach next b c) : Reach next a c :=
  .head hab hbc

theorem reach_cases {a c : α} (h : Reach next a c) : c = a ∨ ∃ b ∈ next a, Reach next b c := by
  rcases Relation.ReflTransGen.cases_head h with rfl | ⟨b, hab, hbc⟩
  · exact .inl rfl
  · exact .inr ⟨b, hab, hbc⟩

theorem mem_walk {fuel : Nat} {stack order : List α} (h : walk next fuel stack = some order) (c : α) :
    c ∈ order ↔ ∃ a ∈ stack, Reach next a c := by
  induction fuel generalizing stack order with
  | zero =>
    cases stack with
    | nil =>
      obtain rfl := Option.some.inj h
      simp
    | cons a stack => cases h
  | succ fuel ih =>
    cases stack with
    | nil =>
      obtain rfl := Option.some.inj h
      simp
    | cons a stack =>
      obtain ⟨rest, hrest, rfl⟩ := Option.map_eq_some_iff.mp h
      rw [List.mem_cons, ih hrest]
      constructor
      · rintro (rfl | ⟨b, hb, hbc⟩)
        · exact ⟨c, List.mem_cons_self, reach_refl c⟩
        · rcases List.mem_append.mp hb with hb | hb
          · exact ⟨a, List.mem_cons_self, reach_head (List.mem_reverse.mp hb) hbc⟩
          · exact ⟨b, List.mem_cons_of_mem a hb, hbc⟩
      · rintro ⟨b, hb, hbc⟩
        rcases List.mem_cons.mp hb with rfl | hb
        · rcases reach_cases hbc with rfl | ⟨d, hd, hdc⟩
          · exact .inl rfl
          · exact .inr ⟨d, List.mem_append_left _ (List.mem_reverse.mpr hd), hdc⟩
        · exact .inr ⟨b, List.mem_append_right _ hb, hbc⟩

theorem walk_add {fuel : Nat} {stack order : List α} (h : walk next fuel stack = some order)
    (more : Nat) : walk next (fuel + more) stack = some order := by
  induction fuel generalizing stack order with
  | zero =>
    cases stack with
    | nil =>
      obtain rfl := Option.some.inj h
      cases 0 + more <;> rfl
    | cons a stack => cases h
  | succ fuel ih =>
    cases stack with
    | nil =>
      obtain rfl := Option.some.inj h
      cases fuel + 1 + more <;> rfl
    | cons a stack =>
      obtain ⟨rest, hrest, rfl⟩ := Option.map_eq_some_iff.mp h
      rw [Nat.add_right_comm, walk, ih hrest, Option.map_some]

theorem walk_unique {fuel fuel' : Nat} {stack order order' : List α}
    (h : walk next fuel stack = some order) (h' : walk next fuel' stack = some order') :
    order = order' := by
  have hsum := walk_add h fuel'
  rw [Nat.add_comm, walk_add h' fuel] at hsum
  exact (Option.some.inj hsum).symm

open Classical in
theorem lists_reach {S : Set α} {univ : List α} (huniv : univ.Nodup)
    (hall : ∀ a ∈ S, ∀ b, Reach next a b → b ∈ univ)
    (hnodup : ∀ a ∈ S, (next a).Nodup) (hloop : ∀ a ∈ S, ∀ b ∈ next a, ¬ Reach next b a)
    (hsplit : ∀ a ∈ S, ∀ b ∈ next a, ∀ b' ∈ next a, ∀ c, Reach next b c → Reach next b' c → b = b') :
    Lists next S fun a => univ.filter fun b => Reach next a b := by
  intro a ha
  rw [List.perm_ext_iff_of_nodup (huniv.filter _)]
  · intro c
    simp only [List.mem_filter, decide_eq_true_eq, List.mem_cons, List.mem_flatMap]
    constructor
    · rintro ⟨hc, hreach⟩
      rcases reach_cases hreach with rfl | ⟨b, hb, hbc⟩
      · exact .inl rfl
      · exact .inr ⟨b, hb, hc, hbc⟩
    · rintro (rfl | ⟨b, hb, hc, hbc⟩)
      · exact ⟨hall c ha c (reach_refl c), reach_refl c⟩
      · exact ⟨hc, reach_head hb hbc⟩
  · rw [List.nodup_cons, List.nodup_flatMap]
    refine ⟨?_, fun b _ => huniv.filter _, (hnodup a ha).imp_of_mem ?_⟩
    · intro hmem
      obtain ⟨b, hb, hba⟩ := List.mem_flatMap.mp hmem
      exact hloop a ha b hb (of_decide_eq_true (List.mem_filter.mp hba).2)
    · intro b b' hb hb' hne c hc hc'
      exact hne (hsplit a ha b hb b' hb' c (of_decide_eq_true (List.mem_filter.mp hc).2)
        (of_decide_eq_true (List.mem_filter.mp hc').2))

/-! ## Walks that change what they walk over -/

section Run

variable {σ : Type*} (step : σ → α → σ × List α)

/-- The state when the stack is worked off. A step gives what it pushes, the new top first. -/
def run : Nat → σ → List α → Option σ
  | _, s, [] => some s
  | 0, _, _ :: _ => none
  | fuel + 1, s, a :: stack => run fuel (step s a).1 ((step s a).2 ++ stack)

variable {step}

theorem run_of_invariant (Inv : List α → List α → σ → Prop) {univ : List α}
    (hstep : ∀ taken a stack s, Inv taken (a :: stack) s →
      Inv (a :: taken) ((step s a).2 ++ stack) (step s a).1)
    (hinside : ∀ taken stack s, Inv taken stack s →
      (taken ++ stack).Nodup ∧ taken ++ stack ⊆ univ)
    {fuel : Nat} {taken stack : List α} {s : σ} (h : Inv taken stack s)
    (hfuel : univ.length ≤ fuel + taken.length) :
    ∃ taken' s', run step fuel s stack = some s' ∧ Inv taken' [] s' := by
  induction fuel generalizing taken stack s with
  | zero =>
    cases stack with
    | nil => exact ⟨taken, s, rfl, h⟩
    | cons a stack =>
      obtain ⟨hnodup, hsub⟩ := hinside _ _ _ h
      have hlen := (List.subperm_of_subset hnodup hsub).length_le
      simp only [List.length_append, List.length_cons] at hlen
      omega
  | succ fuel ih =>
    cases stack with
    | nil => exact ⟨taken, s, rfl, h⟩
    | cons a stack =>
      apply ih (hstep taken a stack s h)
      rw [List.length_cons]
      omega

end Run

end StackWalk
