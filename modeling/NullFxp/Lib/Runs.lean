import Mathlib.Logic.Relation

/-!
# Runs of a step function

`step s a` is the state after action `a`, or `none` when `a` cannot happen in `s`.
A run is a list of actions.
-/

namespace Runs

variable {σ α : Type*} (step : σ → α → Option σ)

def run : σ → List α → Option σ
  | s, [] => some s
  | s, a :: as => (step s a).bind fun s' => run s' as

/-- Every action of the run meets `cond` in the state that it is taken in. -/
def Meets (cond : σ → α → Prop) : σ → List α → Prop
  | _, [] => True
  | s, a :: as => cond s a ∧ ∀ s', step s a = some s' → Meets cond s' as

instance decidableMeets {cond : σ → α → Prop} [∀ s a, Decidable (cond s a)] :
    ∀ s as, Decidable (Meets step cond s as)
  | _, [] => .isTrue trivial
  | s, a :: as =>
    match h : step s a with
    | none => decidable_of_iff (cond s a) (by simp [Meets, h])
    | some s' =>
      have : Decidable (Meets step cond s' as) := decidableMeets s' as
      decidable_of_iff (cond s a ∧ Meets step cond s' as) (by simp [Meets, h])

def Reaches (s s' : σ) : Prop := ∃ as, run step s as = some s'

variable {step}

theorem run_cons {s s' : σ} {a : α} {as : List α} :
    run step s (a :: as) = some s' ↔ ∃ t, step s a = some t ∧ run step t as = some s' := by
  simp [run, Option.bind_eq_some_iff]

theorem run_append {s s' : σ} {as bs : List α} :
    run step s (as ++ bs) = some s' ↔ ∃ t, run step s as = some t ∧ run step t bs = some s' := by
  induction as generalizing s with
  | nil => simp [run]
  | cons a as ih =>
    rw [List.cons_append, run_cons]
    constructor
    · rintro ⟨u, hu, h⟩
      obtain ⟨t, ht, hb⟩ := ih.mp h
      exact ⟨t, run_cons.mpr ⟨u, hu, ht⟩, hb⟩
    · rintro ⟨t, h, hb⟩
      obtain ⟨u, hu, ht⟩ := run_cons.mp h
      exact ⟨u, hu, ih.mpr ⟨t, ht, hb⟩⟩

theorem meets_append {cond : σ → α → Prop} {s t : σ} {as bs : List α}
    (h : Meets step cond s (as ++ bs)) (hr : run step s as = some t) :
    Meets step cond s as ∧ Meets step cond t bs := by
  induction as generalizing s with
  | nil =>
    obtain rfl : s = t := by simpa [run] using hr
    exact ⟨trivial, h⟩
  | cons a as ih =>
    obtain ⟨u, hu, hr⟩ := run_cons.mp hr
    obtain ⟨hc, hrest⟩ := h
    refine ⟨⟨hc, ?_⟩, (ih (hrest u hu) hr).2⟩
    intro v hv
    obtain rfl : u = v := by simpa [hu] using hv
    exact (ih (hrest u hu) hr).1

/-- **The invariant rule**, for the runs that meet a condition. -/
theorem run_invariant_of_meets {cond : σ → α → Prop} (inv : σ → Prop)
    (hstep : ∀ s a s', inv s → cond s a → step s a = some s' → inv s')
    {s s' : σ} {as : List α} (hs : inv s) (hm : Meets step cond s as)
    (hr : run step s as = some s') : inv s' := by
  induction as generalizing s with
  | nil =>
    obtain rfl : s = s' := by simpa [run] using hr
    exact hs
  | cons a as ih =>
    obtain ⟨t, ht, hr⟩ := run_cons.mp hr
    exact ih (hstep s a t hs hm.1 ht) (hm.2 t ht) hr

theorem meets_of_invariant {cond goal : σ → α → Prop} (inv : σ → Prop)
    (hstep : ∀ s a s', inv s → cond s a → step s a = some s' → inv s')
    (hgoal : ∀ s a s', inv s → cond s a → step s a = some s' → goal s a)
    {s s' : σ} {as : List α} (hs : inv s) (hm : Meets step cond s as)
    (hr : run step s as = some s') : Meets step goal s as := by
  induction as generalizing s with
  | nil => trivial
  | cons a as ih =>
    obtain ⟨t, ht, hr⟩ := run_cons.mp hr
    refine ⟨hgoal s a t hs hm.1 ht, fun u hu => ?_⟩
    rw [ht] at hu
    obtain rfl := Option.some.inj hu
    exact ih (hstep s a t hs hm.1 ht) (hm.2 t ht) hr

theorem meets_congr {cond cond' : σ → α → Prop} (inv : σ → Prop)
    (hstep : ∀ s a s', inv s → cond' s a → step s a = some s' → inv s')
    (h : ∀ s a, inv s → (cond s a ↔ cond' s a)) {s : σ} (hs : inv s) (as : List α) :
    Meets step cond s as ↔ Meets step cond' s as := by
  induction as generalizing s with
  | nil => exact Iff.rfl
  | cons a as ih =>
    unfold Meets
    rw [h s a hs]
    refine and_congr_right fun hc => forall_congr' fun s' => ?_
    exact imp_congr_right fun hs' => ih (hstep s a s' hs hc hs')

theorem meets_true (s : σ) (as : List α) : Meets step (fun _ _ => True) s as := by
  induction as generalizing s with
  | nil => trivial
  | cons a as ih => exact ⟨trivial, fun s' _ => ih s'⟩

/-- **The invariant rule.** -/
theorem run_invariant (inv : σ → Prop) (hstep : ∀ s a s', inv s → step s a = some s' → inv s')
    {s s' : σ} {as : List α} (hs : inv s) (hr : run step s as = some s') : inv s' :=
  run_invariant_of_meets inv (fun s a s' hi _ => hstep s a s' hi) hs (meets_true s as) hr

theorem meets_iff {cond : σ → α → Prop} {inv good : σ → Prop}
    (hinv : ∀ s a s', inv s → step s a = some s' → inv s')
    (hgood : ∀ s a s', inv s → good s → step s a = some s' → (good s' ↔ cond s a))
    {s s' : σ} {as : List α} (hs : inv s) (hg : good s) (hr : run step s as = some s') :
    Meets step cond s as ↔ ∀ bs t, bs <+: as → run step s bs = some t → good t := by
  induction as generalizing s with
  | nil =>
    refine ⟨fun _ bs t hbs ht => ?_, fun _ => trivial⟩
    obtain rfl := List.prefix_nil.mp hbs
    obtain rfl : s = t := by simpa [run] using ht
    exact hg
  | cons a as ih =>
    obtain ⟨u, hu, hr⟩ := run_cons.mp hr
    have hstep := hgood s a u hs hg hu
    have hmeets : Meets step cond s (a :: as) ↔ cond s a ∧ Meets step cond u as := by
      refine and_congr_right fun _ => ⟨fun h => h u hu, fun h v hv => ?_⟩
      rw [hu] at hv
      exact Option.some.inj hv ▸ h
    rw [hmeets]
    constructor
    · rintro ⟨hc, hm⟩ bs t hbs ht
      rcases List.prefix_cons_iff.mp hbs with rfl | ⟨cs, rfl, hcs⟩
      · obtain rfl : s = t := by simpa [run] using ht
        exact hg
      · obtain ⟨v, hv, ht⟩ := run_cons.mp ht
        rw [hu] at hv
        obtain rfl := Option.some.inj hv
        exact (ih (hinv s a u hs hu) (hstep.mpr hc) hr).mp hm cs t hcs ht
    · intro h
      have hgu : good u := h [a] u (by simp) (run_cons.mpr ⟨u, hu, rfl⟩)
      refine ⟨hstep.mp hgu, (ih (hinv s a u hs hu) hgu hr).mpr fun bs t hbs ht => ?_⟩
      exact h (a :: bs) t (List.cons_prefix_cons.mpr ⟨rfl, hbs⟩) (run_cons.mpr ⟨u, hu, ht⟩)

end Runs
