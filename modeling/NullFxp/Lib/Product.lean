import NullFxp.Lib.Runs

/-!
# Systems of components that do not see each other

An action of the system is at most one action of each component. When every step is so, a run
of the system is one run of each component, whatever the order.
-/

namespace Product

variable {σ α κ τ β : Type*}

/-- A component does nothing in the actions that are not its own. -/
def act (comp : τ → β → Option τ) (b : Option β) (t : τ) : Option τ :=
  match b with
  | none => some t
  | some b => comp t b

/-- What has to be shown of a system: `view s k` is component `k` of `s`, and `proj k a` is what
it does in the action `a`. -/
structure Splits (step : σ → α → Option σ) (comp : τ → β → Option τ) (proj : κ → α → Option β)
    (view : σ → κ → τ) (inv : σ → Prop) (cond : σ → α → Prop) : Prop where
  keeps : ∀ s a s', inv s → cond s a → step s a = some s' → inv s'
  goesOn : ∀ s a s', inv s → cond s a → step s a = some s' →
    ∀ k, act comp (proj k a) (view s k) = some (view s' k)
  stops : ∀ s a, inv s → cond s a → step s a = none → ∃ k, act comp (proj k a) (view s k) = none

variable {step : σ → α → Option σ} {comp : τ → β → Option τ} {proj : κ → α → Option β}
  {view : σ → κ → τ} {inv : σ → Prop} {cond : σ → α → Prop}

theorem run_act (b : Option β) (t : τ) (bs : List β) :
    Runs.run comp t (b.toList ++ bs) = (act comp b t).bind fun t => Runs.run comp t bs := by
  cases b with
  | none => rfl
  | some b => rfl

theorem filterMap_cons (k : κ) (a : α) (as : List α) :
    (a :: as).filterMap (proj k) = (proj k a).toList ++ as.filterMap (proj k) := by
  cases h : proj k a with
  | none => simp [h]
  | some b => simp [h]

/-- **A run of the system is a run of every component.** -/
theorem Splits.run_some (h : Splits step comp proj view inv cond) {s s' : σ} {as : List α}
    (hs : inv s) (hm : Runs.Meets step cond s as) (hr : Runs.run step s as = some s') (k : κ) :
    Runs.run comp (view s k) (as.filterMap (proj k)) = some (view s' k) := by
  induction as generalizing s with
  | nil =>
    obtain rfl := Option.some.inj hr
    rfl
  | cons a as ih =>
    obtain ⟨t, ht, hr⟩ := Runs.run_cons.mp hr
    rw [filterMap_cons, run_act, h.goesOn s a t hs hm.1 ht k, Option.bind_some]
    exact ih (h.keeps s a t hs hm.1 ht) (hm.2 t ht) hr

/-- **The system only stops where one of its components does.** -/
theorem Splits.run_none (h : Splits step comp proj view inv cond) {s : σ} {as : List α}
    (hs : inv s) (hm : Runs.Meets step cond s as) (hr : Runs.run step s as = none) :
    ∃ k, Runs.run comp (view s k) (as.filterMap (proj k)) = none := by
  induction as generalizing s with
  | nil => cases hr
  | cons a as ih =>
    cases ht : step s a with
    | none =>
      obtain ⟨k, hk⟩ := h.stops s a hs hm.1 ht
      refine ⟨k, ?_⟩
      rw [filterMap_cons, run_act, hk]
      rfl
    | some t =>
      rw [Runs.run, ht] at hr
      obtain ⟨k, hk⟩ := ih (h.keeps s a t hs hm.1 ht) (hm.2 t ht) hr
      refine ⟨k, ?_⟩
      rw [filterMap_cons, run_act, h.goesOn s a t hs hm.1 ht k]
      exact hk

end Product
