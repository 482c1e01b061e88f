import NullFxp.Lib.Regex

/-!
# What a pattern reads

`Accepts` says which texts a pattern can take. `Reads` says which text it takes first, and with
which groups.
-/

namespace Regex

variable {γ : Type*} {s w t u v : List Char} {p : Char → Bool} {i : Nat} {x : γ}

/-! ## Every match is of an accepted text -/

/-- The pattern can take `w` where `t` comes after it. -/
def Pat.Accepts : Pat → List Char → List Char → Prop
  | .one p, w, _ => ∃ c, w = [c] ∧ p c = true
  | .many p, w, _ => ∀ c ∈ w, p c = true
  | .seq a b, w, t => ∃ u v, w = u ++ v ∧ a.Accepts u (v ++ t) ∧ b.Accepts v t
  | .alt a b, w, t => a.Accepts w t ∨ b.Accepts w t
  | .group a, w, t => a.Accepts w t
  | .stop, w, t => w = [] ∧ t = []

theorem drop_add_length (h : s.drop i = w ++ t) : s.drop (i + w.length) = t := by
  rw [← List.drop_drop, h, List.drop_left]

theorem longest_sound {k : Nat → Option γ} (h : longest p k s i = some x) :
    ∃ w t, s = w ++ t ∧ (∀ c ∈ w, p c = true) ∧ k (i + w.length) = some x := by
  induction s generalizing i with
  | nil => exact ⟨[], [], rfl, by simp, h⟩
  | cons c s ih =>
    have hhere : k i = some x → ∃ w t, c :: s = w ++ t ∧ (∀ c ∈ w, p c = true) ∧
        k (i + w.length) = some x := fun hk => ⟨[], c :: s, rfl, by simp, hk⟩
    unfold longest at h
    split at h
    · next hc =>
      rcases Option.or_eq_some_iff.mp h with h | ⟨-, h⟩
      · obtain ⟨w, t, rfl, hw, hk⟩ := ih h
        refine ⟨c :: w, t, rfl, by simpa [hc] using hw, ?_⟩
        rw [← hk, List.length_cons]
        congr 1
        omega
      · exact hhere h
    · exact hhere h

theorem Pat.matchAt_sound {a : Pat} {g : Groups} {k : Nat → Groups → Option γ}
    (h : a.matchAt s i g k = some x) :
    ∃ w t g', s.drop i = w ++ t ∧ a.Accepts w t ∧ k (i + w.length) g' = some x := by
  induction a generalizing i g k with
  | one p =>
    obtain ⟨c, hc, hk⟩ := Option.bind_eq_some_iff.mp h
    rw [Option.ite_none_right_eq_some] at hk
    obtain ⟨hi, rfl⟩ := List.getElem?_eq_some_iff.mp hc
    exact ⟨[s[i]], s.drop (i + 1), g, List.drop_eq_getElem_cons hi, ⟨s[i], rfl, hk.1⟩, hk.2⟩
  | many p =>
    obtain ⟨w, t, hs, hw, hk⟩ := longest_sound h
    exact ⟨w, t, g, hs, hw, hk⟩
  | seq a b iha ihb =>
    obtain ⟨u, t, g', hu, ha, hb⟩ := iha h
    obtain ⟨v, t', g'', hv, hb, hk⟩ := ihb hb
    rw [drop_add_length hu] at hv
    subst hv
    refine ⟨u ++ v, t', g'', by rw [hu, List.append_assoc], ⟨u, v, rfl, ha, hb⟩, ?_⟩
    rw [← hk, List.length_append, Nat.add_assoc]
  | alt a b iha ihb =>
    rcases Option.or_eq_some_iff.mp h with h | ⟨-, h⟩
    · obtain ⟨w, t, g', hs, ha, hk⟩ := iha h
      exact ⟨w, t, g', hs, .inl ha, hk⟩
    · obtain ⟨w, t, g', hs, hb, hk⟩ := ihb h
      exact ⟨w, t, g', hs, .inr hb, hk⟩
  | group a ih =>
    obtain ⟨w, t, g', hs, ha, hk⟩ := ih h
    exact ⟨w, t, _, hs, ha, hk⟩
  | stop =>
    rw [Pat.matchAt, Option.ite_none_right_eq_some] at h
    obtain ⟨rfl, hk⟩ := h
    exact ⟨[], [], g, by simp, ⟨rfl, rfl⟩, hk⟩

theorem Pat.groupsAt_sound {a : Pat} {g : Groups} (h : a.groupsAt s i = some g) :
    ∃ w t, s.drop i = w ++ t ∧ a.Accepts w t := by
  obtain ⟨w, t, -, hs, ha, -⟩ := Pat.matchAt_sound h
  exact ⟨w, t, hs, ha⟩

theorem Pat.accepts_plus : (Pat.plus p).Accepts w t ↔ w ≠ [] ∧ ∀ c ∈ w, p c = true := by
  constructor
  · rintro ⟨u, v, rfl, ⟨c, rfl, hc⟩, hv⟩
    refine ⟨by simp, ?_⟩
    intro d hd
    rcases List.mem_cons.mp hd with rfl | hd
    · exact hc
    · exact hv d hd
  · rintro ⟨hne, hw⟩
    obtain ⟨c, v, rfl⟩ := List.exists_cons_of_ne_nil hne
    exact ⟨[c], v, rfl, ⟨c, rfl, hw c (by simp)⟩, fun d hd => hw d (by simp [hd])⟩

theorem Pat.accepts_chr {c : Char} : (Pat.chr c).Accepts w t ↔ w = [c] := by
  constructor
  · rintro ⟨d, rfl, hd⟩
    rw [eq_of_beq hd]
  · rintro rfl
    exact ⟨c, rfl, beq_self_eq_true c⟩

/-! ## The text that is taken first -/

/-- Where `w` and then `t` stand, the pattern takes `w`, and its groups are the texts `ts`, if what
comes after it goes on from there. -/
def Pat.Reads (a : Pat) (w t : List Char) (ts : List (List Char)) : Prop :=
  ∀ (s : List Char) (i : Nat), s.drop i = w ++ t → ∀ g, ∃ g', g'.map (text s) = ts ∧
    ∀ (k : Nat → Groups → Option Groups) x, k (i + w.length) (g ++ g') = some x →
      a.matchAt s i g k = some x

/-- `t` does not go on with a character of the class. -/
def Ends (p : Char → Bool) (t : List Char) : Prop := ∀ c ∈ t.head?, p c = false

theorem ends_nil : Ends p [] := by
  intro c hc
  cases hc

theorem ends_append (hne : w ≠ []) (hw : ∀ c ∈ w.head?, p c = false) : Ends p (w ++ t) := by
  obtain ⟨c, w, rfl⟩ := List.exists_cons_of_ne_nil hne
  exact hw

theorem longest_greedy {k : Nat → Option γ} (hw : ∀ c ∈ w, p c = true) (ht : Ends p t)
    (hk : k (i + w.length) = some x) : longest p k (w ++ t) i = some x := by
  induction w generalizing i with
  | nil =>
    cases t with
    | nil => exact hk
    | cons c t =>
      rw [List.nil_append, longest, if_neg (by simp [ht c rfl])]
      exact hk
  | cons c w ih =>
    rw [List.cons_append, longest, if_pos (hw c (by simp)), ih (fun d hd => hw d (by simp [hd]))]
    · rfl
    · rw [← hk, List.length_cons]
      congr 1
      omega

namespace Pat

variable {a b : Pat} {ts us : List (List Char)} {c : Char}

theorem reads_one (hc : p c = true) : (Pat.one p).Reads [c] t [] := by
  intro s i hs g
  refine ⟨[], rfl, ?_⟩
  intro k x hk
  have hget : s[i]? = some c := by rw [← List.head?_drop, hs]; rfl
  rw [matchAt, hget, Option.bind_some, if_pos hc, ← hk, List.append_nil]
  rfl

theorem reads_many (hw : ∀ c ∈ w, p c = true) (ht : Ends p t) : (Pat.many p).Reads w t [] := by
  intro s i hs g
  refine ⟨[], rfl, ?_⟩
  intro k x hk
  rw [List.append_nil] at hk
  rw [matchAt, hs]
  exact longest_greedy hw ht hk

theorem reads_seq (ha : a.Reads u (v ++ t) ts) (hb : b.Reads v t us) :
    (Pat.seq a b).Reads (u ++ v) t (ts ++ us) := by
  intro s i hs g
  rw [List.append_assoc] at hs
  obtain ⟨g', hg', ha⟩ := ha s i hs g
  obtain ⟨g'', hg'', hb⟩ := hb s (i + u.length) (drop_add_length hs) (g ++ g')
  refine ⟨g' ++ g'', by rw [List.map_append, hg', hg''], ?_⟩
  intro k x hk
  apply ha
  apply hb
  rw [← hk, List.length_append, Nat.add_assoc, List.append_assoc]

theorem reads_group (ha : a.Reads w t []) : (Pat.group a).Reads w t [w] := by
  intro s i hs g
  obtain ⟨g', hg', ha⟩ := ha s i hs g
  obtain rfl := List.map_eq_nil_iff.mp hg'
  refine ⟨[(i, w.length)], ?_, ?_⟩
  · simp [text, hs]
  · intro k x hk
    apply ha
    rw [← hk, List.append_nil, Nat.add_sub_cancel_left]

theorem reads_chr : (Pat.chr c).Reads [c] t [] := reads_one (beq_self_eq_true c)

theorem reads_plus (hne : w ≠ []) (hw : ∀ c ∈ w, p c = true) (ht : Ends p t) :
    (Pat.plus p).Reads w t [] := by
  obtain ⟨c, v, rfl⟩ := List.exists_cons_of_ne_nil hne
  exact reads_seq (reads_one (hw c (by simp))) (reads_many (fun d hd => hw d (by simp [hd])) ht)

theorem reads_times (hne : w ≠ []) (hw : ∀ c ∈ w, p c = true) :
    (Pat.times w.length (.one p)).Reads w t [] := by
  induction w with
  | nil => exact absurd rfl hne
  | cons c w ih =>
    have hc := hw c (by simp)
    cases w with
    | nil => exact reads_one hc
    | cons d w => exact reads_seq (reads_one hc) (ih (by simp) fun e he => hw e (by simp [he]))

theorem groupsAt_of_reads (h : a.Reads w t ts) (hs : s.drop i = w ++ t) :
    ∃ g, a.groupsAt s i = some g ∧ g.map (text s) = w :: ts := by
  obtain ⟨g', hg', ha⟩ := h s i hs []
  refine ⟨(i, w.length) :: g', ?_, ?_⟩
  · apply ha
    simp
  · simp [text, hs, hg']

theorem captured_of_reads (h : a.Reads s [] ts) : a.captured s = some (s :: ts) := by
  obtain ⟨g, hg, hts⟩ := groupsAt_of_reads h (show s.drop 0 = s ++ [] by simp)
  rw [captured, hg, Option.map_some, hts]

theorem find_of_reads (h : a.Reads w t ts)
    (hu : ∀ j < u.length, ∀ v r, (u ++ (w ++ t)).drop j = v ++ r → ¬ a.Accepts v r) :
    a.find (u ++ (w ++ t)) = some (w :: ts) := by
  obtain ⟨g, hg, hts⟩ := groupsAt_of_reads h (show (u ++ (w ++ t)).drop u.length = w ++ t by simp)
  have hlen : (u ++ (w ++ t)).length + 1 = u.length + ((w ++ t).length + 1) := by
    rw [List.length_append, Nat.add_assoc]
  rw [find, hlen, List.range_add, List.findSome?_append, List.findSome?_eq_none_iff.mpr]
  · rw [Option.none_or, List.findSome?_map, List.range_succ_eq_map, List.findSome?_cons]
    simp [hg, hts]
  · intro j hj
    rw [Option.map_eq_none_iff, Option.eq_none_iff_forall_ne_some]
    intro g' hg'
    obtain ⟨v, r, hv, hacc⟩ := groupsAt_sound hg'
    exact hu j (List.mem_range.mp hj) v r hv hacc

theorem find_eq_none (h : ∀ u v r, s = u ++ (v ++ r) → ¬ a.Accepts v r) : a.find s = none := by
  rw [find, List.findSome?_eq_none_iff]
  intro j _
  rw [Option.map_eq_none_iff, Option.eq_none_iff_forall_ne_some]
  intro g hg
  obtain ⟨v, r, hv, hacc⟩ := groupsAt_sound hg
  refine h (s.take j) v r ?_ hacc
  rw [← hv, List.take_append_drop]

end Pat

end Regex
