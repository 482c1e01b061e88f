import NullFxp.Lib.Runs

/-!
# Programs that make calls

A program waits at each call for the answer. Between two answers others may write the state:
the user, a timer, another thread.
-/

namespace Calls

/-- `Ans o` is what the call `o` is answered with. -/
inductive Prog {O : Type} (Ans : O → Type) (α : Type) where
  | ret (a : α)
  /-- a failed assert -/
  | abort
  | call (o : O) (next : Ans o → Prog Ans α)
  /-- The call is made over and over as long as `more` holds of the answer. -/
  | loop (o : O) (more : Ans o → Bool) (got : List (Ans o))
      (next : List (Ans o) → Ans o → Prog Ans α)

section

variable {O : Type} {Ans : O → Type} {α β σ τ ε : Type}

namespace Prog

def bind : Prog Ans α → (α → Prog Ans β) → Prog Ans β
  | .ret a, f => f a
  | .abort, _ => .abort
  | .call o next, f => .call o fun a => (next a).bind f
  | .loop o more got next, f => .loop o more got fun got a => (next got a).bind f

instance : Monad (Prog Ans) where
  pure := .ret
  bind := .bind

/-- The call that the program waits at. -/
def pending : Prog Ans α → Option O
  | .ret _ => none
  | .abort => none
  | .call o _ => some o
  | .loop o _ _ _ => some o

end Prog

def ask (o : O) : Prog Ans (Ans o) := .call o .ret

/-- The answers, and the one that ended the loop. -/
def askWhile (o : O) (more : Ans o → Bool) : Prog Ans (List (Ans o) × Ans o) :=
  .loop o more [] fun got a => .ret (got, a)

def assert (b : Bool) : Prog Ans Unit := if b then .ret () else .abort

/-! ## What a program needs -/

/-- The calls as the part `τ` of the state sees them, that only the program writes. -/
structure Own (Ans : O → Type) (τ : Type) where
  /-- what has to hold where the program waits, at a call or at its end -/
  ok : τ → Option O → Prop
  call : τ → (o : O) → Ans o → τ

/-- `ok` holds on the way, and `Q` at the end. -/
def wp (v : Own Ans τ) : Prog Ans α → (α → τ → Prop) → τ → Prop
  | .ret a, Q, t => Q a t
  | .abort, _, t => v.ok t none
  | .call o next, Q, t => v.ok t (some o) ∧ ∀ a, wp v (next a) Q (v.call t o a)
  | .loop o more _ next, Q, t => v.ok t (some o) ∧ (∀ a, more a = true → v.call t o a = t) ∧
      ∀ got a, more a = false → wp v (next got a) Q (v.call t o a)

section

variable {v : Own Ans τ} {t : τ}

theorem wp_mono {p : Prog Ans α} {Q Q' : α → τ → Prop} (h : wp v p Q t)
    (hQ : ∀ a t, Q a t → Q' a t) : wp v p Q' t := by
  induction p generalizing t with
  | ret a => exact hQ a t h
  | abort => exact h
  | call o next ih => exact ⟨h.1, fun a => ih a (h.2 a)⟩
  | loop o more got next ih => exact ⟨h.1, h.2.1, fun got a hm => ih got a (h.2.2 got a hm)⟩

@[simp]
theorem wp_bind {p : Prog Ans α} {f : α → Prog Ans β} {Q : β → τ → Prop} :
    wp v (p >>= f) Q t ↔ wp v p (fun a t => wp v (f a) Q t) t := by
  change wp v (p.bind f) Q t ↔ _
  induction p generalizing t with
  | ret a => exact Iff.rfl
  | abort => exact Iff.rfl
  | call o next ih => simp only [Prog.bind, wp, ih]
  | loop o more got next ih => simp only [Prog.bind, wp, ih]

@[simp]
theorem wp_pure {a : α} {Q : α → τ → Prop} : wp v (pure a) Q t ↔ Q a t := Iff.rfl

@[simp]
theorem wp_ask {o : O} {Q : Ans o → τ → Prop} :
    wp v (ask o) Q t ↔ v.ok t (some o) ∧ ∀ a, Q a (v.call t o a) := Iff.rfl

@[simp]
theorem wp_ite {c : Prop} [Decidable c] {p q : Prog Ans α} {Q : α → τ → Prop} :
    wp v (if c then p else q) Q t ↔ if c then wp v p Q t else wp v q Q t := by
  split <;> rfl

theorem wp_askWhile {o : O} {more : Ans o → Bool} {Q : List (Ans o) × Ans o → τ → Prop}
    (hok : v.ok t (some o)) (hmore : ∀ a, v.call t o a = t) (hQ : ∀ got a, more a = false → Q (got, a) t) :
    wp v (askWhile o more) Q t :=
  ⟨hok, fun a _ => hmore a, fun got a hm => by rw [hmore a]; exact hQ got a hm⟩

@[simp]
theorem wp_assert {b : Bool} {Q : Unit → τ → Prop} :
    wp v (assert b) Q t ↔ if b then Q () t else v.ok t none := by
  unfold assert
  split <;> rfl

end

theorem wp_ok {v : Own Ans τ} {t : τ} {p : Prog Ans α} {Q : α → τ → Prop} (h : wp v p Q t)
    (hQ : ∀ a t, Q a t → v.ok t none) : v.ok t p.pending := by
  cases p with
  | ret a => exact hQ a t h
  | abort => exact h
  | call o next => exact h.1
  | loop o more got next => exact h.1

/-! ## Runs -/

variable [DecidableEq O]

/-- What is left of the program once the call `o` is answered. -/
def Prog.answer (p : Prog Ans α) (o : O) (a : Ans o) : Option (Prog Ans α) :=
  match p with
  | .ret _ => none
  | .abort => none
  | .call o' next => if h : o = o' then some (next (h ▸ a)) else none
  | .loop o' more got next =>
    if h : o = o' then
      some (if more (h ▸ a) then .loop o' more (got ++ [h ▸ a]) next else next got (h ▸ a))
    else none

/-- `none`: the call is not answered so, or the event cannot happen. -/
structure World (Ans : O → Type) (σ ε : Type) where
  call : σ → (o : O) → Ans o → Option σ
  event : σ → ε → Option σ

inductive Step (Ans : O → Type) (ε : Type) where
  | answer (o : O) (a : Ans o)
  | event (e : ε)

def step (w : World Ans σ ε) (c : σ × Prog Ans α) : Step Ans ε → Option (σ × Prog Ans α)
  | .event e => (w.event c.1 e).map fun s => (s, c.2)
  | .answer o a => (c.2.answer o a).bind fun p => (w.call c.1 o a).map fun s => (s, p)

theorem step_call {w : World Ans σ ε} {o : O} {next : Ans o → Prog Ans α} {s : σ}
    {e : Step Ans ε} {c : σ × Prog Ans α} (h : step w (s, .call o next) e = some c) :
    (∃ a, w.call s o a = some c.1 ∧ c.2 = next a) ∨
      ∃ e, w.event s e = some c.1 ∧ c.2 = .call o next := by
  cases e with
  | event e =>
    simp only [step, Option.map_eq_some_iff] at h
    obtain ⟨s', hs', rfl⟩ := h
    exact .inr ⟨e, hs', rfl⟩
  | answer o' a =>
    simp only [step, Prog.answer] at h
    split at h
    · rename_i ho
      subst ho
      simp only [Option.bind_some, Option.map_eq_some_iff] at h
      obtain ⟨s', hs', rfl⟩ := h
      exact .inl ⟨a, hs', rfl⟩
    · simp at h

theorem step_loop {w : World Ans σ ε} {o : O} {more : Ans o → Bool} {got : List (Ans o)}
    {next : List (Ans o) → Ans o → Prog Ans α} {s : σ} {e : Step Ans ε} {c : σ × Prog Ans α}
    (h : step w (s, .loop o more got next) e = some c) :
    (∃ a, w.call s o a = some c.1 ∧
      c.2 = if more a then .loop o more (got ++ [a]) next else next got a) ∨
      ∃ e, w.event s e = some c.1 ∧ c.2 = .loop o more got next := by
  cases e with
  | event e =>
    simp only [step, Option.map_eq_some_iff] at h
    obtain ⟨s', hs', rfl⟩ := h
    exact .inr ⟨e, hs', rfl⟩
  | answer o' a =>
    simp only [step, Prog.answer] at h
    split at h
    · rename_i ho
      subst ho
      simp only [Option.bind_some, Option.map_eq_some_iff] at h
      obtain ⟨s', hs', rfl⟩ := h
      exact .inl ⟨a, hs', rfl⟩
    · simp at h

/-- `view` is the program's own part of the state: the others do not write it. -/
structure Owns (w : World Ans σ ε) (v : Own Ans τ) (view : σ → τ) : Prop where
  call : ∀ s o a s', w.call s o a = some s' → view s' = v.call (view s) o a
  event : ∀ s e s', w.event s e = some s' → view s' = view s

variable {w : World Ans σ ε} {v : Own Ans τ} {view : σ → τ}

theorem wp_step (hw : Owns w v view) {p : Prog Ans α} {Q : α → τ → Prop} {s : σ}
    {e : Step Ans ε} {c : σ × Prog Ans α} (h : wp v p Q (view s))
    (hs : step w (s, p) e = some c) : wp v c.2 Q (view c.1) := by
  have hevent {e : ε} {s' : σ} (he : w.event s e = some s') : wp v p Q (view s') := by
    rw [hw.event s e s' he]
    exact h
  cases p with
  | ret a | abort =>
    cases e with
    | answer o b => simp [step, Prog.answer] at hs
    | event e =>
      simp only [step, Option.map_eq_some_iff] at hs
      obtain ⟨s', hs', rfl⟩ := hs
      exact hevent hs'
  | call o next =>
    obtain ⟨a, ha, hc⟩ | ⟨e, he, hc⟩ := step_call hs
    · rw [hc]
      rw [hw.call s o a _ ha]
      exact h.2 a
    · rw [hc]
      exact hevent he
  | loop o more got next =>
    obtain ⟨a, ha, hc⟩ | ⟨e, he, hc⟩ := step_loop hs
    · rw [hc, hw.call s o a _ ha]
      split
      · rename_i hm
        rw [h.2.1 a hm]
        exact h
      · rename_i hm
        exact h.2.2 got a (by simpa using hm)
    · rw [hc]
      exact hevent he

/-- **However the others interleave**, every state of a run has what the rest of the program
needs. -/
theorem wp_run (hw : Owns w v view) {p : Prog Ans α} {Q : α → τ → Prop} {s : σ}
    {as : List (Step Ans ε)} {c : σ × Prog Ans α} (h : wp v p Q (view s))
    (hr : Runs.run (step w) (s, p) as = some c) : wp v c.2 Q (view c.1) := by
  induction as generalizing s p with
  | nil =>
    simp only [Runs.run, Option.some.injEq] at hr
    subst hr
    exact h
  | cons e as ih =>
    obtain ⟨d, hd, hr⟩ := Runs.run_cons.mp hr
    exact ih (wp_step hw h hd) hr

theorem pending_of_answer {p p' : Prog Ans α} {o : O} {a : Ans o} (h : p.answer o a = some p') :
    p.pending = some o := by
  cases p with
  | ret b => simp [Prog.answer] at h
  | abort => simp [Prog.answer] at h
  | call o' next | loop o' more got next =>
    simp only [Prog.answer] at h
    split at h
    · rename_i ho
      subst ho
      rfl
    · simp at h

theorem invariant_run (hw : Owns w v view) {p : Prog Ans α} {Q : α → τ → Prop}
    (hQ : ∀ a t, Q a t → v.ok t none) (inv : σ → Prop)
    (hcall : ∀ s o a s', inv s → v.ok (view s) (some o) → w.call s o a = some s' → inv s')
    (hevent : ∀ s e s', inv s → w.event s e = some s' → inv s') {s : σ} {as : List (Step Ans ε)}
    {c : σ × Prog Ans α} (h : wp v p Q (view s)) (hs : inv s)
    (hr : Runs.run (step w) (s, p) as = some c) : inv c.1 := by
  induction as generalizing s p with
  | nil =>
    simp only [Runs.run, Option.some.injEq] at hr
    subst hr
    exact hs
  | cons e as ih =>
    obtain ⟨⟨s', p'⟩, hd, hr⟩ := Runs.run_cons.mp hr
    refine ih (wp_step hw h hd) ?_ hr
    cases e with
    | event e =>
      simp only [step, Option.map_eq_some_iff, Prod.mk.injEq] at hd
      obtain ⟨t, ht, rfl, -⟩ := hd
      exact hevent s e t hs ht
    | answer o a =>
      simp only [step, Option.bind_eq_some_iff, Option.map_eq_some_iff, Prod.mk.injEq] at hd
      obtain ⟨q, hq, t, ht, rfl, -⟩ := hd
      have hok := wp_ok h hQ
      rw [pending_of_answer hq] at hok
      exact hcall s o a t hs hok ht

end

end Calls
