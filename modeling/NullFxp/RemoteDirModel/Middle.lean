import NullFxp.RemoteDirModel.Reachable

/-!
# Rows in the middle

The refresh of a directory removes single rows and inserts at the end. `removeRows` is right for any
slice of the rows, `insertRows` at the end only.
-/

open Forest RowMap Runs

namespace NullFxp.RemoteDirModel

/-! ## Removing -/

/-- **`removeRows` deletes exactly a slice.** A node that is deleted already cannot be deleted again,
so what is gone was deleted once. -/
theorem removeRows_slice (m : Model) (hm : WellFormed m) (p : Nat) (pd : NetDirNode) (l : List Nat)
    (hp : m.nodes p = some pd) (hl : Children pd l) (idx : ModelIndex) (hidx : PointsTo idx p)
    (row count : Nat) (h : row + count ≤ l.length) :
    ∃ m', m.removeRows row count idx = some m' ∧ WellFormed m' ∧
      SliceRemoved m m' p pd l row count := by
  obtain ⟨m', hm', hwf, hs⟩ := removeRow_loop_slice hm hp hl row count h
  refine ⟨m', ?_, hwf, hs⟩
  rw [Model.removeRows, hidx.2]
  simp only [Option.bind_eq_bind, Option.bind_some, hp, hm']

theorem removeRows_slice_only : ∃ m', (smallTree ['h']).removeRows 0 1 ⟨0, 0, some 0⟩ = some m' ∧
    WellFormed m' ∧ SliceRemoved (smallTree ['h']) m' 0 smallRoot [1] 0 1 :=
  removeRows_slice (smallTree ['h']) (smallTree_wellFormed _) 0 smallRoot [1] rfl smallRoot_children
    ⟨0, 0, some 0⟩ ⟨⟨by simp, by simp⟩, rfl⟩ 0 1 (by simp)

/-! ## Inserting -/

/-- What `insertRows` is for: `count` new nodes before the old row `row`. -/
structure RowsInserted (m m' : Model) (p : Nat) (pd : NetDirNode) (l : List Nat) (row count : Nat) :
    Prop where
  rest : m'.rootNode = m.rootNode ∧ m'.commandQueue = m.commandQueue
  parent : ∃ cn news, m'.nodes p = some { pd with childNodes := cn } ∧ news.length = count ∧
    Holds cn ((l.take row ++ news ++ l.drop row).map some) ∧
    ∀ i c, news[i]? = some c → m.nodes c = none ∧
      m'.nodes c = some { NetDirNode.new with pNode := some p, onRow := ↑(row + i) }
  before : ∀ j c, j < row → l[j]? = some c → m'.nodes c = m.nodes c
  after : ∀ j c cd, row ≤ j → l[j]? = some c → m.nodes c = some cd →
    m'.nodes c = some { cd with onRow := ↑(j + count) }
  frame : ∀ x, x ≠ p → x ∉ l → m.nodes x ≠ none → m'.nodes x = m.nodes x

/-! ### In the middle -/

/-- `d` is a child of `p` under the key `k` at most. -/
def OnlyUnder (m : Model) (p d k : Nat) : Prop :=
  ∀ pd, m.nodes p = some pd → ∀ j, pd.childNodes.lookup j = some (some d) → j = k

section Middle

variable {m m' : Model} {p d row count : Nat}

theorem set_onRow_childNodes {n : Nat} {nd pd : NetDirNode} {i : Int} (hn : m.nodes n = some nd)
    (hp : (m.set n { nd with onRow := i }).nodes p = some pd) :
    ∃ pd₀, m.nodes p = some pd₀ ∧ pd.childNodes = pd₀.childNodes := by
  by_cases hpn : p = n
  · subst hpn
    rw [Model.set_nodes_self] at hp
    obtain rfl := Option.some.inj hp
    exact ⟨nd, hn, rfl⟩
  · rw [Model.set_nodes_ne _ _ hpn] at hp
    exact ⟨pd, hp, rfl⟩

theorem moveRow_keys {i : Nat} (h : m.moveRow p row count i = some m') :
    m'.next = m.next ∧ ∃ pd n pd', m.nodes p = some pd ∧ pd.childAt (i + row) = some n ∧
      m'.nodes p = some pd' ∧
      pd'.childNodes = (pd.childNodes.insert (i + row) none).insert (i + row + count - 1) (some n) := by
  simp only [Model.moveRow, Option.bind_eq_bind, Option.bind_eq_some_iff] at h
  obtain ⟨pd, hpd, n, hn, nd, hnd, -, -, pd₁, hpd₁, h⟩ := h
  obtain ⟨pd₀, hpd₀, hsame⟩ := set_onRow_childNodes hnd hpd₁
  obtain rfl := Option.some.inj (hpd.symm.trans hpd₀)
  obtain rfl := Option.some.inj h
  refine ⟨rfl, pd, n, _, hpd, hn, Model.set_nodes_self .., ?_⟩
  rw [hsame]

theorem OnlyUnder.childAt {k j : Nat} (h : OnlyUnder m p d k) {pd : NetDirNode}
    (hp : m.nodes p = some pd) (hj : pd.childAt j = some d) : j = k := by
  apply h pd hp
  rw [NetDirNode.childAt] at hj
  cases hlook : pd.childNodes.lookup j with
  | none => simp [hlook] at hj
  | some v => simpa [hlook] using hj

theorem moveRow_succ (h : OnlyUnder m p d row) {i : Nat}
    (hmove : m.moveRow p row count (i + 1) = some m') : OnlyUnder m' p d row := by
  obtain ⟨-, pd, n, pd', hpd, hn, hpd', hkeys⟩ := moveRow_keys hmove
  intro pd₁ hpd₁ j hj
  obtain rfl := Option.some.inj (hpd'.symm.trans hpd₁)
  have hne : n ≠ d := by
    rintro rfl
    have := h.childAt hpd hn
    omega
  rw [hkeys] at hj
  rcases eq_or_ne j (i + 1 + row + count - 1) with rfl | hj₁
  · rw [AList.lookup_insert] at hj
    simp [hne] at hj
  rw [AList.lookup_insert_ne hj₁] at hj
  rcases eq_or_ne j (i + 1 + row) with rfl | hj₂
  · simp [AList.lookup_insert] at hj
  rw [AList.lookup_insert_ne hj₂] at hj
  exact h pd hpd j hj

theorem moveRow_zero (h : OnlyUnder m p d row) (hmove : m.moveRow p row count 0 = some m') :
    OnlyUnder m' p d (row + count - 1) := by
  obtain ⟨-, pd, n, pd', hpd, hn, hpd', hkeys⟩ := moveRow_keys hmove
  intro pd₁ hpd₁ j hj
  obtain rfl := Option.some.inj (hpd'.symm.trans hpd₁)
  rw [hkeys, Nat.zero_add] at hj
  by_contra hj₁
  rw [AList.lookup_insert_ne hj₁] at hj
  rcases eq_or_ne j row with rfl | hj₂
  · simp [AList.lookup_insert] at hj
  rw [AList.lookup_insert_ne hj₂] at hj
  exact hj₂ (h pd hpd j hj)

theorem moveRow_loop {k : Nat} (h : OnlyUnder m p d row)
    (hloop : (List.range (k + 1)).reverse.foldlM (fun m i => m.moveRow p row count i) m = some m') :
    m'.next = m.next ∧ OnlyUnder m' p d (row + count - 1) := by
  induction k generalizing m with
  | zero =>
    have hmove : m.moveRow p row count 0 = some m' := by simpa using hloop
    exact ⟨(moveRow_keys hmove).1, moveRow_zero h hmove⟩
  | succ k ih =>
    rw [List.range_succ, List.reverse_append, List.reverse_singleton, List.singleton_append,
      List.foldlM_cons, Option.bind_eq_bind, Option.bind_eq_some_iff] at hloop
    obtain ⟨m₁, hmove, hloop⟩ := hloop
    obtain ⟨hnext, hunder⟩ := ih (moveRow_succ h hmove) hloop
    exact ⟨hnext.trans (moveRow_keys hmove).1, hunder⟩

theorem newRow_keys {i : Nat} (h : m.newRow p i = some m') :
    m'.next = m.next + 1 ∧ ∃ pd pd', (p = m.next ∨ m.nodes p = some pd) ∧ m'.nodes p = some pd' ∧
      pd'.childNodes = pd.childNodes.insert i (some m.next) := by
  simp only [Model.newRow, Option.bind_eq_bind, Option.bind_eq_some_iff] at h
  obtain ⟨-, -, pd, hpd, h⟩ := h
  obtain rfl := Option.some.inj h
  refine ⟨rfl, pd, _, ?_, Model.set_nodes_self .., rfl⟩
  by_cases hne : p = m.next
  · exact .inl hne
  · right
    simpa [Model.alloc, hne] using hpd

theorem newRow_onlyUnder {k i : Nat} (h : OnlyUnder m p d k) (hlt : p < m.next ∧ d < m.next)
    (hnew : m.newRow p i = some m') : OnlyUnder m' p d k ∧ p < m'.next ∧ d < m'.next := by
  obtain ⟨hnext, pd, pd', hpd, hpd', hkeys⟩ := newRow_keys hnew
  refine ⟨?_, by omega, by omega⟩
  intro pd₁ hpd₁ j hj
  obtain rfl := Option.some.inj (hpd'.symm.trans hpd₁)
  rw [hkeys] at hj
  rcases eq_or_ne j i with rfl | hji
  · rw [AList.lookup_insert, Option.some.injEq, Option.some.injEq] at hj
    omega
  · rw [AList.lookup_insert_ne hji] at hj
    exact h pd (hpd.resolve_left (by omega)) j hj

theorem newRow_loop {k : Nat} (h : OnlyUnder m p d (row + k)) (hlt : p < m.next ∧ d < m.next)
    (hloop : (List.range' row (k + 1)).foldlM (fun m i => m.newRow p i) m = some m')
    {pd : NetDirNode} (hpd : m'.nodes p = some pd) (j : Nat) :
    pd.childNodes.lookup j ≠ some (some d) := by
  rw [List.range'_concat, List.foldlM_append, Option.bind_eq_bind, Option.bind_eq_some_iff] at hloop
  obtain ⟨m₁, hrows, hlast⟩ := hloop
  have hinv : OnlyUnder m₁ p d (row + k) ∧ p < m₁.next ∧ d < m₁.next := by
    clear hlast hpd
    generalize List.range' row k = rows at hrows
    induction rows generalizing m with
    | nil =>
      obtain rfl : m = m₁ := by simpa using hrows
      exact ⟨h, hlt⟩
    | cons i rows ih =>
      rw [List.foldlM_cons, Option.bind_eq_bind, Option.bind_eq_some_iff] at hrows
      obtain ⟨m₂, hnew, hrows⟩ := hrows
      obtain ⟨hunder, hlt₂⟩ := newRow_onlyUnder h hlt hnew
      exact ih hunder hlt₂ hrows
  obtain ⟨hunder, hp, hd⟩ := hinv
  have hlast : m₁.newRow p (row + k) = some m' := by simpa using hlast
  obtain ⟨-, pd₁, pd', hpd₁, hpd', hkeys⟩ := newRow_keys hlast
  obtain rfl := Option.some.inj (hpd'.symm.trans hpd)
  rw [hkeys]
  intro hj
  rcases eq_or_ne j (row + k) with rfl | hjk
  · rw [AList.lookup_insert, Option.some.injEq, Option.some.injEq] at hj
    omega
  · rw [AList.lookup_insert_ne hjk] at hj
    exact hjk (hunder pd₁ (hpd₁.resolve_left (by omega)) j hj)

end Middle

/-! ### At the end -/

section End

variable {m : Model} (hm : WellFormed m) {p : Nat} {pd : NetDirNode} {l : List Nat}
  (hp : m.nodes p = some pd) (hl : Children pd l)

include hm hp hl

theorem RowsInserted.push {m' : Model} {k : Nat} (h : RowsInserted m m' p pd l l.length k)
    (hwf : WellFormed m') (hnext : m.next ≤ m'.next) (hk : l.length + k < 32768) :
    ∃ m'', m'.newRow p (l.length + k) = some m'' ∧ WellFormed m'' ∧ m.next ≤ m''.next ∧
      RowsInserted m m'' p pd l l.length (k + 1) := by
  obtain ⟨cn, news, hcn, hlen, hholds, hnews⟩ := h.parent
  simp only [List.take_length, List.drop_length, List.append_nil] at hholds
  have hrows : Children { pd with childNodes := cn } (l ++ news) := hholds
  have hcount : (l ++ news).length = l.length + k := by simp [hlen]
  have hpne : p ≠ m'.next := (hwf.fresh p _ hcn).ne
  have hnew : m'.newRow p (l.length + k) =
      some (m'.withRow p { pd with childNodes := cn } (l.length + k)) := by
    rw [newRow_eq hcn hpne, short_of_lt _ hk, if_pos (by omega)]
  have hpush := children_append hrows m'
  have hwf' := withRow_wellFormed hwf hcn hrows (by omega)
  rw [hcount] at hpush hwf'
  -- an old node is neither the new one nor, unless it is `p`, changed
  have hold : ∀ x, x ≠ p → m.nodes x ≠ none →
      (m'.withRow p { pd with childNodes := cn } (l.length + k)).nodes x = m'.nodes x := by
    intro x hxp hx
    obtain ⟨xd, hxd⟩ := Option.ne_none_iff_exists'.mp hx
    have hlt := hm.fresh x xd hxd
    exact withRow_nodes_ne hxp (by omega) _
  have hchild : ∀ (j c : Nat), l[j]? = some c → c ≠ p ∧ m.nodes c ≠ none := by
    intro j c hc
    obtain ⟨cd, hcd, -⟩ := hm.children_onRow hp hl j c hc
    refine ⟨?_, by simp [hcd]⟩
    rintro rfl
    exact hm.not_mem_children_self hp hl (List.mem_of_getElem? hc)
  refine ⟨_, hnew, hwf', hnext.trans (Nat.le_succ _), h.rest, ?_, ?_, ?_, ?_⟩
  · refine ⟨_, news ++ [m'.next], withRow_nodes_self _, by simp [hlen], ?_, ?_⟩
    · simpa [Children] using hpush
    · intro i c hic
      rcases Nat.lt_or_ge i k with hi | hi
      · rw [List.getElem?_append_left (by omega)] at hic
        obtain ⟨hfree, hnd⟩ := hnews i c hic
        refine ⟨hfree, ?_⟩
        rw [withRow_nodes_ne ?_ ?_, hnd]
        · rintro rfl
          simp [hp] at hfree
        · exact (hwf.fresh c _ hnd).ne
      · have hik : i = k := by
          have := (List.getElem?_eq_some_iff.mp hic).1
          simp only [List.length_append, List.length_singleton] at this
          omega
        subst hik
        rw [← hlen, List.getElem?_concat_length] at hic
        obtain rfl := Option.some.inj hic
        refine ⟨?_, ?_⟩
        · by_contra hne
          obtain ⟨xd, hxd⟩ := Option.ne_none_iff_exists'.mp hne
          have := hm.fresh _ xd hxd
          omega
        · rw [withRow_nodes_new hpne, short_of_lt _ hk]
  · intro j c hj hc
    rw [hold c (hchild j c hc).1 (hchild j c hc).2, h.before j c hj hc]
  · intro j c cd hj hc
    have := (List.getElem?_eq_some_iff.mp hc).1
    omega
  · intro x hxp hxl hx
    rw [hold x hxp hx, h.frame x hxp hxl hx]

theorem newRow_loop_end (k : Nat) (hk : l.length + k ≤ 32768) :
    ∃ m', (List.range' l.length k).foldlM (fun m i => Model.newRow m p i) m = some m' ∧
      WellFormed m' ∧ m.next ≤ m'.next ∧ RowsInserted m m' p pd l l.length k := by
  induction k with
  | zero =>
    refine ⟨m, rfl, hm, le_refl _, ⟨rfl, rfl⟩, ⟨pd.childNodes, [], hp, rfl, ?_, by simp⟩,
      fun _ _ _ _ => rfl, ?_, fun _ _ _ _ => rfl⟩
    · simpa [Children] using hl
    · intro j c cd hj hc
      have := (List.getElem?_eq_some_iff.mp hc).1
      omega
  | succ k ih =>
    obtain ⟨m₁, h₁, hwf, hnext, hins⟩ := ih (by omega)
    obtain ⟨m₂, h₂, hrest⟩ := hins.push hm hp hl hwf hnext (by omega)
    refine ⟨m₂, ?_, hrest⟩
    rw [List.range'_concat, List.foldlM_append, h₁]
    simpa using h₂

theorem newRow_loop_full {k : Nat} (hk : 32768 < l.length + k) :
    (List.range' l.length k).foldlM (fun m i => Model.newRow m p i) m = none := by
  have hlen := hm.children_length hp hl
  obtain ⟨m₁, h₁, hwf, -, hins⟩ := newRow_loop_end hm hp hl (32768 - l.length) (by omega)
  obtain ⟨cn, news, hcn, -⟩ := hins.parent
  have hpne : p ≠ m₁.next := (hwf.fresh p _ hcn).ne
  obtain ⟨j, rfl⟩ : ∃ j, k = (32768 - l.length) + (j + 1) := ⟨k - (32768 - l.length) - 1, by omega⟩
  have hlast : m₁.newRow p 32768 = none := by
    rw [newRow_eq hcn hpne, short_limit, if_neg (by omega)]
  rw [← List.range'_append_1, List.foldlM_append, h₁, show l.length + (32768 - l.length) = 32768 by omega,
    List.range'_succ]
  simp [hlast]

end End

/-- **`insertRows` is right at the end only.** In the middle the node of row `row` is moved to the
last of the rows that the new nodes then take, and is lost. -/
theorem insertRows_iff (m : Model) (hm : WellFormed m) (p : Nat) (pd : NetDirNode) (l : List Nat)
    (hp : m.nodes p = some pd) (hl : Children pd l) (idx : ModelIndex) (hidx : PointsTo idx p)
    (row count : Nat) (hrow : row ≤ l.length) (hcount : 1 ≤ count) :
    (∃ m', m.insertRows row count idx = some m' ∧ RowsInserted m m' p pd l row count) ↔
      row = l.length ∧ l.length + count ≤ 32768 := by
  have heq : m.insertRows row count idx = (m.moveRows p row count).bind fun m =>
      (List.range' row count).foldlM (fun m i => Model.newRow m p i) m := by
    rw [Model.insertRows, if_pos hidx.1, hidx.2]
    simp only [hcount, guard_true, Option.pure_def, Option.bind_eq_bind, Option.bind_some, hp,
      children_count hl, hrow]
  have hmoves : m.moveRows p row count = if row < l.length then
      (List.range count).reverse.foldlM (fun m i => m.moveRow p row count i) m else some m := by
    rw [Model.moveRows, hp]
    simp only [Option.bind_eq_bind, Option.bind_some, children_count hl]
  rcases Nat.lt_or_ge row l.length with hlt | hge
  · refine iff_of_false ?_ (by omega)
    rintro ⟨m', hins, hall⟩
    rw [heq, hmoves, if_pos hlt, Option.bind_eq_some_iff] at hins
    obtain ⟨m₁, hmove, hnew⟩ := hins
    obtain ⟨k, rfl⟩ : ∃ k, count = k + 1 := ⟨count - 1, by omega⟩
    have hat : l[row]? = some l[row] := List.getElem?_eq_getElem hlt
    obtain ⟨cd, hcd, -⟩ := hm.children_onRow hp hl _ _ hat
    have honly : OnlyUnder m p l[row] row := by
      intro pd' hpd' j hj
      obtain rfl := Option.some.inj (hp.symm.trans hpd')
      rw [children_lookup hl] at hj
      exact hm.row_inj hp hl (by simpa using hj) hat
    obtain ⟨hnext, hunder⟩ := moveRow_loop honly hmove
    have hplt := hm.fresh p pd hp
    have hdlt := hm.fresh _ cd hcd
    obtain ⟨cn, news, hcn, hlen, hholds, -⟩ := hall.parent
    refine newRow_loop hunder ⟨by omega, by omega⟩ hnew hcn (row + (k + 1)) ?_
    have htake : (l.take row).length = row := List.length_take_of_le hlt.le
    show cn.lookup _ = _
    rw [hholds, List.getElem?_map, List.append_assoc, List.getElem?_append_right (by omega), htake,
      List.getElem?_append_right (by omega), hlen, Nat.add_sub_cancel_left, Nat.sub_self,
      List.getElem?_drop, Nat.add_zero, hat]
    rfl
  · obtain rfl : row = l.length := by omega
    rw [heq, hmoves, if_neg (by omega), Option.bind_some]
    rcases Nat.lt_or_ge 32768 (l.length + count) with hfull | hfits
    · rw [newRow_loop_full hm hp hl hfull]
      refine iff_of_false ?_ (by omega)
      rintro ⟨m', h, -⟩
      cases h
    · obtain ⟨m', h, -, -, hins⟩ := newRow_loop_end hm hp hl count hfits
      exact iff_of_true ⟨m', h, hins⟩ ⟨rfl, hfits⟩

theorem insertRows_behind : ∃ m', (smallTree ['h']).insertRows 1 2 ⟨0, 0, some 0⟩ = some m' ∧
    RowsInserted (smallTree ['h']) m' 0 smallRoot [1] 1 2 :=
  (insertRows_iff (smallTree ['h']) (smallTree_wellFormed _) 0 smallRoot [1] rfl smallRoot_children
    ⟨0, 0, some 0⟩ ⟨⟨by simp, by simp⟩, rfl⟩ 1 2 (by simp) (by simp)).mpr (by simp)

theorem insertRows_before : WellFormed (smallTree ['h']) ∧ Children smallRoot [1] ∧
    ((smallTree ['h']).insertRows 0 1 ⟨0, 0, some 0⟩).isSome ∧
    ¬ ∃ m', (smallTree ['h']).insertRows 0 1 ⟨0, 0, some 0⟩ = some m' ∧
      RowsInserted (smallTree ['h']) m' 0 smallRoot [1] 0 1 := by
  -- A node before the only row: the old one is gone, and there is no row 1.
  refine ⟨smallTree_wellFormed _, smallRoot_children, by decide, ?_⟩
  rintro ⟨m', h, hall⟩
  have hlost : (((smallTree ['h']).insertRows 0 1 ⟨0, 0, some 0⟩).bind fun m =>
      (m.nodes 0).bind fun nd => nd.childNodes.lookup 1) = none := by decide
  obtain ⟨cn, news, hcn, hlen, hholds, -⟩ := hall.parent
  have hold := hholds 1
  rw [h, Option.bind_some, hcn, Option.bind_some] at hlost
  obtain ⟨n, rfl⟩ := List.length_eq_one_iff.mp hlen
  simp [hlost] at hold

end NullFxp.RemoteDirModel
