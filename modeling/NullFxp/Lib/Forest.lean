import Mathlib.Logic.Relation
import Mathlib.Order.Basic

/-!
# Forests given by parent pointers

`par c = some p` says that `p` is the parent of `c`. Parents are made before their
children, so an address is always above its parent's: that is all the order is for.
-/

namespace Forest

variable {ι : Type*} (par : ι → Option ι)

/-- `x` is `n` or somewhere below it. -/
def Below (x n : ι) : Prop := Relation.ReflTransGen (fun c p => par c = some p) x n

variable {par}

theorem below_refl (n : ι) : Below par n n := Relation.ReflTransGen.refl

theorem below_child {x c n : ι} (h : Below par x c) (hc : par c = some n) : Below par x n :=
  Relation.ReflTransGen.tail h hc

theorem below_cases {x n : ι} (h : Below par x n) : x = n ∨ ∃ c, par c = some n ∧ Below par x c := by
  rcases Relation.ReflTransGen.cases_tail h with rfl | ⟨c, hxc, hc⟩
  · exact Or.inl rfl
  · exact Or.inr ⟨c, hc, hxc⟩

theorem below_par {x n : ι} (h : Below par x n) : x = n ∨ ∃ q, par x = some q ∧ Below par q n :=
  Relation.ReflTransGen.cases_head h

theorem below_total {x a b : ι} (ha : Below par x a) (hb : Below par x b) :
    Below par a b ∨ Below par b a := by
  apply Relation.ReflTransGen.total_of_right_unique _ ha hb
  intro c p q hp hq
  rw [hp] at hq
  exact Option.some.inj hq

theorem below_mono {par' : ι → Option ι} (h : ∀ x y, par x = some y → par' x = some y) {x n : ι}
    (hx : Below par x n) : Below par' x n := by
  induction hx with
  | refl => exact below_refl x
  | tail _ hc ih => exact below_child ih (h _ _ hc)

theorem below_of_agree {par' : ι → Option ι} {x n : ι} (h : ∀ y, Below par y n → par' y = par y)
    (hx : Below par x n) : Below par' x n := by
  induction hx using Relation.ReflTransGen.head_induction_on with
  | refl => exact below_refl n
  | head hyz hzn ih =>
    refine Relation.ReflTransGen.head ?_ ih
    rw [h _ (Relation.ReflTransGen.head hyz hzn)]
    exact hyz

section Ordered

variable [PartialOrder ι]

theorem le_of_below (hpar : ∀ c p, par c = some p → p < c) {x n : ι} (h : Below par x n) : n ≤ x := by
  induction h with
  | refl => exact le_refl _
  | tail _ hc ih => exact le_trans (le_of_lt (hpar _ _ hc)) ih

theorem below_siblings (hpar : ∀ c p, par c = some p → p < c) {x n c d : ι}
    (hc : par c = some n) (hd : par d = some n) (hxc : Below par x c) (hxd : Below par x d) :
    c = d := by
  have key : ∀ a b, par a = some n → par b = some n → Below par a b → a = b := by
    intro a b ha hb hab
    rcases below_par hab with rfl | ⟨p, hp, hpb⟩
    · rfl
    · rw [ha] at hp
      obtain rfl := Option.some.inj hp
      exact absurd (hpar b n hb) (not_lt_of_ge (le_of_below hpar hpb))
  rcases below_total hxc hxd with h | h
  · exact key c d hc hd h
  · exact (key d c hd hc h).symm

end Ordered

end Forest
