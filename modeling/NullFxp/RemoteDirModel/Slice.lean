import NullFxp.RemoteDirModel.Rows

/-!
# Removing a slice of rows

`removeRows` takes the rows out one by one, from the last of the slice on.
-/

open Forest RowMap

namespace NullFxp.RemoteDirModel

/-- What `removeRows` is for: the slice is gone with all below it, the rows after it moved, and
nothing else has changed. -/
structure SliceRemoved (m m' : Model) (p : Nat) (pd : NetDirNode) (l : List Nat) (row count : Nat) :
    Prop where
  rest : SameRest m m'
  parent : ∃ cn, m'.nodes p = some { pd with childNodes := cn } ∧
    Holds cn ((l.take row ++ l.drop (row + count)).map some)
  before : ∀ j c, j < row → l[j]? = some c → m'.nodes c = m.nodes c
  after : ∀ j c cd, row + count ≤ j → l[j]? = some c → m.nodes c = some cd →
    m'.nodes c = some { cd with onRow := ↑(j - count) }
  gone : ∀ j d, row ≤ j → j < row + count → l[j]? = some d →
    m.nodes d ≠ none ∧ ∀ x, Below (par m) x d → m'.nodes x = none
  frame : ∀ x, x ≠ p → x ∉ l →
    (∀ j d, row ≤ j → j < row + count → l[j]? = some d → ¬ Below (par m) x d) →
    m'.nodes x = m.nodes x

section Remove

variable {m : Model} (hm : WellFormed m) {p : Nat} {pd : NetDirNode} {l : List Nat}
  (hp : m.nodes p = some pd) (hl : Children pd l)

include hm hp hl

theorem RowRemoved.below {m' : Model} {i d : Nat} (h : RowRemoved m m' p pd l i d)
    (hd : l[i]? = some d) {c : Nat} (hc : c ∈ l) (hne : c ≠ d) {x : Nat} (hx : Below (par m) x c) :
    Below (par m') x c := by
  have hdl : d ∈ l := List.mem_of_getElem? hd
  apply below_of_agree _ hx
  intro y hy
  have hyd : ¬ Below (par m) y d := fun hb => hne
    (below_siblings hm.par_lt ((hm.mem_children hp hl c).mp hc) ((hm.mem_children hp hl d).mp hdl)
      hy hb)
  have hlive : ∃ yd, m.nodes y = some yd := by
    rcases below_par hy with rfl | ⟨q, hq, -⟩
    · obtain ⟨j, hj⟩ := List.getElem?_of_mem hc
      obtain ⟨cd, hcd, -⟩ := hm.children_onRow hp hl j y hj
      exact ⟨cd, hcd⟩
    · obtain ⟨yd, hyd, -⟩ := par_some hq
      exact ⟨yd, hyd⟩
  obtain ⟨yd, hyd'⟩ := hlive
  obtain ⟨yd', hy', hpn, -⟩ := h.survives hp hd hyd' hyd
  rw [par_eq hy', par_eq hyd', hpn]

theorem RowRemoved.below_back {m' : Model} {i d : Nat} (h : RowRemoved m m' p pd l i d)
    (hd : l[i]? = some d) {x c : Nat} (hx : Below (par m') x c) : Below (par m) x c := by
  refine below_mono ?_ hx
  intro y q hq
  obtain ⟨yd', hy', hpn⟩ := par_some hq
  obtain ⟨hyd, yd, hy⟩ := h.live hm hp hl hy'
  obtain ⟨yd₁, hy₁, hpn₁, -⟩ := h.survives hp hd hy hyd
  obtain rfl := Option.some.inj (hy'.symm.trans hy₁)
  rw [par_eq hy, ← hpn₁, hpn]

theorem sliceRemoved_zero (row : Nat) : SliceRemoved m m p pd l row 0 := by
  refine ⟨sameRest_refl m, ⟨pd.childNodes, hp, ?_⟩, fun _ _ _ _ => rfl, ?_, ?_, fun _ _ _ _ => rfl⟩
  · rw [Nat.add_zero, List.take_append_drop]
    exact hl
  · intro j c cd _ hc hcd
    obtain ⟨cd', hcd', -, hrow⟩ := hm.children_onRow hp hl j c hc
    obtain rfl := Option.some.inj (hcd.symm.trans hcd')
    rw [hcd, Nat.sub_zero, ← hrow]
  · intro j d hj hlt
    omega

theorem SliceRemoved.cons {m₁ m' : Model} {row count d : Nat} {cn : RowMap NodePtr}
    (hd : l[row + count]? = some d) (h : RowRemoved m m₁ p pd l (row + count) d)
    (hs : SliceRemoved m₁ m' p { pd with childNodes := cn } (l.eraseIdx (row + count)) row count) :
    SliceRemoved m m' p pd l row (count + 1) := by
  have hlt := (List.getElem?_eq_some_iff.mp hd).1
  have hearly : ∀ j, j < row + count → (l.eraseIdx (row + count))[j]? = l[j]? := by
    intro j hj
    rw [List.getElem?_eraseIdx, if_pos hj]
  have hlate : ∀ j, row + count < j → (l.eraseIdx (row + count))[j - 1]? = l[j]? := by
    intro j hj
    rw [List.getElem?_eraseIdx, if_neg (by omega), Nat.sub_add_cancel (by omega)]
  have hneq : ∀ j c, j ≠ row + count → l[j]? = some c → c ≠ d := by
    rintro j c hj hc rfl
    exact hj (hm.row_inj hp hl hc hd)
  refine ⟨h.rest.trans hs.rest, ?_, ?_, ?_, ?_, ?_⟩
  · obtain ⟨cn', hcn', hholds⟩ := hs.parent
    refine ⟨cn', hcn', ?_⟩
    have hslice : (l.eraseIdx (row + count)).take row ++ (l.eraseIdx (row + count)).drop (row + count) =
        l.take row ++ l.drop (row + (count + 1)) := by
      have hlen : (l.take (row + count)).length = row + count := List.length_take_of_le hlt.le
      rw [List.eraseIdx_eq_take_drop_succ, List.take_append_of_le_length (by omega), List.take_take,
        List.drop_append, hlen, List.drop_of_length_le hlen.le, Nat.sub_self, List.drop_zero,
        List.nil_append, min_eq_left (by omega), Nat.add_assoc]
    rwa [hslice] at hholds
  · intro j c hj hc
    obtain ⟨cd, hcd, -⟩ := hm.children_onRow hp hl j c hc
    rw [hs.before j c hj ((hearly j (by omega)).trans hc), h.row j c cd hc (by omega) hcd,
      if_neg (by omega), hcd]
  · intro j c cd hj hc hcd
    have hmoved := h.row j c cd hc (by omega) hcd
    rw [if_pos (by omega)] at hmoved
    rw [hs.after (j - 1) c _ (by omega) ((hlate j (by omega)).trans hc) hmoved]
    simp only [Nat.sub_sub, Nat.add_comm count 1]
  · intro j c hj hjlt hc
    obtain ⟨cd, hcd, -⟩ := hm.children_onRow hp hl j c hc
    refine ⟨by simp [hcd], ?_⟩
    intro x hx
    rcases Nat.lt_or_ge j (row + count) with hlast | hlast
    · have hbelow := h.below hm hp hl hd (List.mem_of_getElem? hc) (hneq j c (by omega) hc) hx
      exact (hs.gone j c hj hlast ((hearly j hlast).trans hc)).2 x hbelow
    · obtain rfl : j = row + count := by omega
      obtain rfl := Option.some.inj (hd.symm.trans hc)
      -- nothing of the rest of the slice is below a node that is gone already
      have hnone := h.gone x hx
      have hxp := below_row hm hp hl (List.mem_of_getElem? hd) hx
      have hrows : x ∉ l.eraseIdx (row + count) := by
        intro hmem
        obtain ⟨k, hk, hkx⟩ := List.mem_eraseIdx_iff_getElem?.mp hmem
        exact hneq k x hk hkx (hxp.2 (List.mem_of_getElem? hkx))
      rw [hs.frame x hxp.1 hrows ?_, hnone]
      intro k c hk hklt hkc hb
      rcases below_par hb with rfl | ⟨q, hq, -⟩
      · exact hrows (List.mem_of_getElem? hkc)
      · obtain ⟨xd, hxd, -⟩ := par_some hq
        simp [hnone] at hxd
  · intro x hxp hxl hslice
    have hrows : x ∉ l.eraseIdx (row + count) := fun hmem => hxl (List.mem_of_mem_eraseIdx hmem)
    have hxd := hslice (row + count) d (by omega) (by omega) hd
    rw [hs.frame x hxp hrows ?_, h.frame x hxp hxl hxd]
    intro j c hj hjlt hc hb
    exact hslice j c hj (by omega) ((hearly j hjlt).symm.trans hc) (h.below_back hm hp hl hd hb)

theorem removeRow_loop_slice (row count : Nat) (h : row + count ≤ l.length) :
    ∃ m', (List.range' row count).reverse.foldlM (fun m i => Model.removeRow m p i) m = some m' ∧
      WellFormed m' ∧ SliceRemoved m m' p pd l row count := by
  induction count generalizing m pd l with
  | zero => exact ⟨m, rfl, hm, sliceRemoved_zero hm hp hl row⟩
  | succ count ih =>
    have hlt : row + count < l.length := by omega
    have hat := List.getElem?_eq_getElem hlt
    obtain ⟨m₁, h₁, hr⟩ := removeRow_spec hm hp hl (row + count) _ hat
    obtain ⟨cn, hcn, hholds⟩ := hr.parent
    have hwf := hr.wellFormed hm hp hl hat
    obtain ⟨m', h', hwf', hs⟩ := ih hwf hcn hholds (by rw [List.length_eraseIdx_of_lt hlt]; omega)
    refine ⟨m', ?_, hwf', hs.cons hm hp hl hat hr⟩
    rw [List.range'_concat, List.reverse_append, List.reverse_singleton, List.singleton_append,
      Nat.one_mul, List.foldlM_cons, h₁]
    exact h'

end Remove

end NullFxp.RemoteDirModel
