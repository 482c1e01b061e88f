import NullFxp.RemoteDirModel.Structure

/-!
# Removing and appending rows keeps the tree well formed

One spec per operation, and from it the invariant.
-/

open Forest RowMap

namespace NullFxp.RemoteDirModel

/-- Everything but the nodes is as before. -/
def SameRest (m m' : Model) : Prop :=
  m'.next = m.next ∧ m'.rootNode = m.rootNode ∧ m'.commandQueue = m.commandQueue

theorem sameRest_refl (m : Model) : SameRest m m := ⟨rfl, rfl, rfl⟩

theorem SameRest.trans {m m' m'' : Model} (h : SameRest m m') (h' : SameRest m' m'') :
    SameRest m m'' :=
  ⟨h'.1.trans h.1, h'.2.1.trans h.2.1, h'.2.2.trans h.2.2⟩

/-! ## The shift before a row goes -/

/-- Rows `i + 1` to `i + k` of `p` have moved down by one. -/
structure Shifted (m m' : Model) (p : Nat) (pd : NetDirNode) (l : List Nat) (i k : Nat) : Prop where
  rest : SameRest m m'
  parent : ∃ cn, m'.nodes p = some { pd with childNodes := cn } ∧
    ∀ j, cn.lookup j = (if i ≤ j ∧ j < i + k then l[j + 1]? else l[j]?).map some
  row : ∀ j c cd, l[j]? = some c → m.nodes c = some cd →
    m'.nodes c = some (if i < j ∧ j ≤ i + k then { cd with onRow := short ↑(j - 1) } else cd)
  frame : ∀ x, x ≠ p → x ∉ l → m'.nodes x = m.nodes x

theorem shiftRow_eq {m : Model} {p j t : Nat} {pd td : NetDirNode} (hp : m.nodes p = some pd)
    (hat : pd.childAt j = some t) (ht : m.nodes t = some td) (htp : t ≠ p) :
    m.shiftRow p j = some ((m.set t { td with onRow := short ↑(j - 1) }).set p
      { pd with childNodes := pd.childNodes.insert (j - 1) (some t) }) := by
  rw [Model.shiftRow, hp]
  simp only [Option.bind_eq_bind, Option.bind_some, hat, ht, Model.set_nodes_ne _ _ htp.symm, hp]

theorem shifted_count {cn : RowMap NodePtr} {l : List Nat} {i : Nat} (hi : i < l.length)
    (h : ∀ j, cn.lookup j =
      (if i ≤ j ∧ j < i + (l.length - (i + 1)) then l[j + 1]? else l[j]?).map some) :
    cn.count = l.length := by
  apply count_of_isSome
  intro j
  rw [h, Option.isSome_map]
  split
  · simp; omega
  · simp

theorem shifted_erase {cn : RowMap NodePtr} {l : List Nat} {i : Nat} (hi : i < l.length)
    (h : ∀ j, cn.lookup j =
      (if i ≤ j ∧ j < i + (l.length - (i + 1)) then l[j + 1]? else l[j]?).map some) :
    Holds (cn.erase (l.length - 1)) ((l.eraseIdx i).map some) := by
  intro j
  rw [List.getElem?_map, List.getElem?_eraseIdx]
  rcases eq_or_ne j (l.length - 1) with rfl | hj
  · rw [AList.lookup_erase, if_neg (by omega), List.getElem?_eq_none (by omega)]
    rfl
  · rw [AList.lookup_erase_ne hj, h]
    congr 1
    by_cases hji : j < i
    · rw [if_neg (by omega), if_pos hji]
    · rw [if_neg hji]
      split
      · rfl
      · rw [List.getElem?_eq_none (by omega), List.getElem?_eq_none (by omega)]

section Remove

variable {m : Model} (hm : WellFormed m) {p : Nat} {pd : NetDirNode} {l : List Nat}
  (hp : m.nodes p = some pd) (hl : Children pd l)

include hm hp hl

theorem shiftRow_spec {m' : Model} {i k : Nat} (h : Shifted m m' p pd l i k)
    (hk : i + 1 + k < l.length) :
    ∃ m'', m'.shiftRow p (i + 1 + k) = some m'' ∧ Shifted m m'' p pd l i (k + 1) := by
  obtain ⟨cn, hcn, hlook⟩ := h.parent
  have hc : l[i + 1 + k]? = some l[i + 1 + k] := List.getElem?_eq_getElem hk
  obtain ⟨cd, hcd, -⟩ := hm.children_onRow hp hl _ _ hc
  have hcd' := h.row _ _ _ hc hcd
  rw [if_neg (by omega)] at hcd'
  have hcp : l[i + 1 + k] ≠ p := fun he =>
    hm.not_mem_children_self hp hl (he ▸ List.getElem_mem hk)
  have hat : ({ pd with childNodes := cn } : NetDirNode).childAt (i + 1 + k) = some l[i + 1 + k] := by
    rw [NetDirNode.childAt, hlook, if_neg (by omega), hc]
    rfl
  refine ⟨_, shiftRow_eq hcn hat hcd' hcp, ?_⟩
  refine ⟨h.rest, ⟨cn.insert (i + k) (some l[i + 1 + k]), ?_, ?_⟩, ?_, ?_⟩
  · rw [Model.set_nodes_self, show i + 1 + k - 1 = i + k by omega]
  · intro j
    rcases eq_or_ne j (i + k) with rfl | hj
    · rw [AList.lookup_insert, if_pos (by omega), show i + k + 1 = i + 1 + k by omega, hc]
      rfl
    · rw [AList.lookup_insert_ne hj, hlook]
      congr 1
      by_cases h1 : i ≤ j ∧ j < i + k
      · rw [if_pos h1, if_pos (by omega)]
      · rw [if_neg h1, if_neg (by omega)]
  · intro j c cd₁ hjc hcd₁
    have hcp' : c ≠ p := fun he => hm.not_mem_children_self hp hl (he ▸ List.mem_of_getElem? hjc)
    rw [Model.set_nodes_ne _ _ hcp']
    have hjl := (List.getElem?_eq_some_iff.mp hjc).1
    rcases eq_or_ne j (i + 1 + k) with rfl | hj
    · rw [hc] at hjc
      obtain rfl := Option.some.inj hjc
      rw [hcd] at hcd₁
      obtain rfl := Option.some.inj hcd₁
      rw [Model.set_nodes_self, if_pos (by omega)]
    · have hne : c ≠ l[i + 1 + k] := fun he => hj (hm.row_inj hp hl (he ▸ hjc) hc)
      rw [Model.set_nodes_ne _ _ hne, h.row j c cd₁ hjc hcd₁]
      congr 1
      by_cases h1 : i < j ∧ j ≤ i + k
      · rw [if_pos h1, if_pos (by omega)]
      · rw [if_neg h1, if_neg (by omega)]
  · intro x hxp hxl
    rw [Model.set_nodes_ne _ _ hxp,
      Model.set_nodes_ne _ _ (by rintro rfl; exact hxl (List.getElem_mem hk)), h.frame x hxp hxl]

theorem shiftRow_loop_spec (i k : Nat) (hk : i + k < l.length) :
    ∃ m', (List.range' (i + 1) k).foldlM (fun m j => m.shiftRow p j) m = some m' ∧
      Shifted m m' p pd l i k := by
  induction k with
  | zero =>
    refine ⟨m, rfl, sameRest_refl m, ⟨pd.childNodes, hp, ?_⟩, ?_, fun _ _ _ => rfl⟩
    · intro j
      rw [if_neg (by omega), children_lookup hl]
    · intro j c cd _ hcd
      rw [if_neg (by omega), hcd]
  | succ k ih =>
    obtain ⟨m1, h1, hs⟩ := ih (by omega)
    obtain ⟨m2, h2, hs2⟩ := shiftRow_spec hm hp hl hs (by omega)
    refine ⟨m2, ?_, hs2⟩
    rw [List.range'_concat, List.foldlM_append, h1]
    simpa using h2

theorem shiftRows_spec (i : Nat) (hi : i < l.length) :
    ∃ m', m.shiftRows p i = some m' ∧ Shifted m m' p pd l i (l.length - (i + 1)) := by
  obtain ⟨m1, h1, hs⟩ := shiftRow_loop_spec hm hp hl i (l.length - (i + 1)) (by omega)
  refine ⟨m1, ?_, hs⟩
  rw [Model.shiftRows, hp]
  simp only [Option.bind_eq_bind, Option.bind_some, children_count hl]
  split
  · exact h1
  · rw [show l.length - (i + 1) = 0 by omega] at h1
    exact h1

/-- What `removeRow` does: row `i` and all below it are gone, the rows after it moved. -/
structure RowRemoved (m m' : Model) (p : Nat) (pd : NetDirNode) (l : List Nat) (i d : Nat) : Prop where
  rest : SameRest m m'
  parent : ∃ cn, m'.nodes p = some { pd with childNodes := cn } ∧
    Holds cn ((l.eraseIdx i).map some)
  row : ∀ j c cd, l[j]? = some c → j ≠ i → m.nodes c = some cd →
    m'.nodes c = some (if i < j then { cd with onRow := short ↑(j - 1) } else cd)
  gone : ∀ x, Below (par m) x d → m'.nodes x = none
  frame : ∀ x, x ≠ p → x ∉ l → ¬ Below (par m) x d → m'.nodes x = m.nodes x

theorem below_row {d : Nat} (hd : d ∈ l) {x : Nat} (hx : Below (par m) x d) :
    x ≠ p ∧ (x ∈ l → x = d) := by
  have hpd : p < d := hm.child_lt hp hl hd
  have hdx : d ≤ x := le_of_below hm.par_lt hx
  refine ⟨by omega, fun hxl => ?_⟩
  exact below_siblings hm.par_lt ((hm.mem_children hp hl x).mp hxl)
    ((hm.mem_children hp hl d).mp hd) (below_refl x) hx

theorem removeRow_spec (i d : Nat) (hd : l[i]? = some d) :
    ∃ m', m.removeRow p i = some m' ∧ RowRemoved m m' p pd l i d := by
  have hi : i < l.length := (List.getElem?_eq_some_iff.mp hd).1
  obtain ⟨m1, h1, hs⟩ := shiftRows_spec hm hp hl i hi
  obtain ⟨cn, hcn, hlook⟩ := hs.parent
  have hcount := shifted_count hi hlook
  let m2 := m1.set p { pd with childNodes := cn.erase (l.length - 1) }
  have hdrop : m1.dropLastRow p = some m2 := by
    rw [Model.dropLastRow, hcn]
    simp only [Option.bind_eq_bind, Option.bind_some, hcount]
    rfl
  have hdlive : m.nodes d ≠ none := by
    obtain ⟨dd, hdd, -⟩ := hm.children_onRow hp hl i d hd
    simp [hdd]
  have hbelow : ∀ x, Below (par m) x d → x ≠ p ∧ (x ∈ l → x = d) :=
    fun x => below_row hm hp hl (List.mem_of_getElem? hd)
  -- Below row `i` the shift has changed nothing.
  have hag : ∀ x, Below (par m) x d → m2.nodes x = m.nodes x := by
    intro x hx
    rw [Model.set_nodes_ne _ _ (hbelow x hx).1]
    by_cases hxl : x ∈ l
    · obtain rfl := (hbelow x hx).2 hxl
      obtain ⟨dd, hdd, -⟩ := hm.children_onRow hp hl i x hd
      rw [hs.row i x dd hd hdd, if_neg (by omega), hdd]
    · exact hs.frame x (hbelow x hx).1 hxl
  obtain ⟨nodes, hdes, hgone, hsame⟩ :=
    destroy_spec hm m2.next m2.nodes d hdlive (by rw [Model.set_next, hs.rest.1]; omega) hag
  refine ⟨{ m2 with nodes := nodes }, ?_, hs.rest, ⟨cn.erase (l.length - 1), ?_, ?_⟩, ?_, hgone, ?_⟩
  · rw [Model.removeRow, hp]
    simp only [Option.bind_eq_bind, Option.bind_some, h1, hdrop, children_childAt hl, hd,
      Model.deletePtr, hdes, Option.map_some]
  · show nodes p = _
    rw [hsame p (fun h => (hbelow p h).1 rfl), Model.set_nodes_self]
  · exact shifted_erase hi hlook
  · intro j c cd hjc hji hcd
    have hcl := List.mem_of_getElem? hjc
    have hne : c ≠ d := by
      rintro rfl
      exact hji (hm.row_inj hp hl hjc hd)
    have hcp : c ≠ p := fun he => hm.not_mem_children_self hp hl (he ▸ hcl)
    show nodes c = _
    rw [hsame c (fun h => hne ((hbelow c h).2 hcl)), Model.set_nodes_ne _ _ hcp, hs.row j c cd hjc hcd]
    have hjl := (List.getElem?_eq_some_iff.mp hjc).1
    congr 1
    by_cases h1 : i < j
    · rw [if_pos (by omega), if_pos h1]
    · rw [if_neg (by omega), if_neg h1]
  · intro x hxp hxl hxd
    show nodes x = _
    rw [hsame x hxd, Model.set_nodes_ne _ _ hxp, hs.frame x hxp hxl]

omit hm hl in
theorem RowRemoved.survives {m' : Model} {i d : Nat} (h : RowRemoved m m' p pd l i d)
    (hd : l[i]? = some d) {x : Nat} {xd : NetDirNode} (hx : m.nodes x = some xd)
    (hxd : ¬ Below (par m) x d) :
    ∃ xd', m'.nodes x = some xd' ∧ xd'.pNode = xd.pNode ∧
      (x ≠ p → xd'.childNodes = xd.childNodes) ∧ (x ∉ l → xd'.onRow = xd.onRow) := by
  obtain ⟨cn, hcn, -⟩ := h.parent
  by_cases hxp : x = p
  · subst hxp
    rw [hp] at hx
    obtain rfl := Option.some.inj hx
    exact ⟨_, hcn, rfl, fun h => absurd rfl h, fun _ => rfl⟩
  by_cases hxl : x ∈ l
  · obtain ⟨j, hj⟩ := List.getElem?_of_mem hxl
    have hji : j ≠ i := by
      rintro rfl
      rw [hd] at hj
      exact hxd (Option.some.inj hj ▸ below_refl d)
    refine ⟨_, h.row j x xd hj hji hx, ?_, ?_, fun h => absurd hxl h⟩
    · split <;> rfl
    · intro _
      split <;> rfl
  · exact ⟨xd, (h.frame x hxp hxl hxd).trans hx, rfl, fun _ => rfl, fun _ => rfl⟩

theorem RowRemoved.live {m' : Model} {i d : Nat} (h : RowRemoved m m' p pd l i d)
    {x : Nat} {xd' : NetDirNode} (hx : m'.nodes x = some xd') :
    ¬ Below (par m) x d ∧ ∃ xd, m.nodes x = some xd := by
  have hxd : ¬ Below (par m) x d := by
    intro hb
    rw [h.gone x hb] at hx
    simp at hx
  refine ⟨hxd, ?_⟩
  by_cases hxp : x = p
  · exact ⟨pd, hxp ▸ hp⟩
  by_cases hxl : x ∈ l
  · obtain ⟨j, hj⟩ := List.getElem?_of_mem hxl
    obtain ⟨xd, hxd, -⟩ := hm.children_onRow hp hl j x hj
    exact ⟨xd, hxd⟩
  · rw [h.frame x hxp hxl hxd] at hx
    exact ⟨xd', hx⟩

theorem RowRemoved.onRow_parent {m' : Model} {i d : Nat} (h : RowRemoved m m' p pd l i d)
    {j c : Nat} (hjc : (l.eraseIdx i)[j]? = some c) : OnRow m' p j c := by
  rw [List.getElem?_eraseIdx] at hjc
  split at hjc
  · rename_i hji
    obtain ⟨cd, hcd, hcp, hrow⟩ := hm.children_onRow hp hl j c hjc
    refine ⟨_, h.row j c cd hjc (by omega) hcd, ?_, ?_⟩
    · rw [if_neg (by omega)]
      exact hcp
    · rw [if_neg (by omega)]
      exact hrow
  · obtain ⟨cd, hcd, hcp, -⟩ := hm.children_onRow hp hl (j + 1) c hjc
    refine ⟨_, h.row (j + 1) c cd hjc (by omega) hcd, ?_, ?_⟩
    · rw [if_pos (by omega)]
      exact hcp
    · have hjl := (List.getElem?_eq_some_iff.mp hjc).1
      have hlen := hm.children_length hp hl
      rw [if_pos (by omega), Nat.add_sub_cancel]
      simp only [short_of_lt j (by omega)]

theorem RowRemoved.onRow_other {m' : Model} {i d : Nat} (h : RowRemoved m m' p pd l i d)
    (hd : l[i]? = some d) {x j c : Nat} (hxp : x ≠ p) (hxb : ¬ Below (par m) x d)
    (hc : OnRow m x j c) : OnRow m' x j c := by
  obtain ⟨cd, hcd, hcp, hrow⟩ := hc
  have hpar : par m c = some x := by rw [par_eq hcd, hcp]
  have hcl : c ∉ l := by
    rw [hm.mem_children hp hl, hpar]
    intro he
    exact hxp (Option.some.inj he)
  have hcb : ¬ Below (par m) c d := by
    intro hb
    rcases below_par hb with rfl | ⟨q, hq, hqd⟩
    · exact hcl (List.mem_of_getElem? hd)
    · rw [hpar] at hq
      exact hxb (Option.some.inj hq ▸ hqd)
  obtain ⟨cd', hcd', hcp', -, hrow'⟩ := h.survives hp hd hcd hcb
  exact ⟨cd', hcd', hcp'.trans hcp, (hrow' hcl).trans hrow⟩

theorem RowRemoved.root {m' : Model} {i d : Nat} (h : RowRemoved m m' p pd l i d)
    (hd : l[i]? = some d) :
    ∃ r rd, m'.rootNode = some r ∧ m'.nodes r = some rd ∧ rd.pNode = none ∧ rd.onRow = 0 := by
  obtain ⟨r, rd, hr, hrd, hnone, hrow⟩ := hm.root
  have hpar : par m r = none := by rw [par_eq hrd, hnone]
  have hrl : r ∉ l := by
    rw [hm.mem_children hp hl, hpar]
    simp
  have hrb : ¬ Below (par m) r d := by
    intro hb
    rcases below_par hb with rfl | ⟨q, hq, -⟩
    · exact hrl (List.mem_of_getElem? hd)
    · rw [hpar] at hq
      simp at hq
  obtain ⟨rd', hrd', hpn, -, hrow'⟩ := h.survives hp hd hrd hrb
  exact ⟨r, rd', h.rest.2.1.trans hr, hrd', hpn.trans hnone, (hrow' hrl).trans hrow⟩

theorem RowRemoved.children {m' : Model} {i d : Nat} (h : RowRemoved m m' p pd l i d)
    (hd : l[i]? = some d) {x : Nat} {xd' : NetDirNode} (hx : m'.nodes x = some xd') :
    ∃ lx, Children xd' lx ∧ lx.Nodup ∧ lx.length ≤ 32768 ∧
      ∀ j c, lx[j]? = some c → OnRow m' x j c := by
  by_cases hxp : x = p
  · subst hxp
    obtain ⟨cn, hcn, hcnl⟩ := h.parent
    rw [hx] at hcn
    obtain rfl := Option.some.inj hcn
    have hsub := List.eraseIdx_sublist l i
    exact ⟨l.eraseIdx i, hcnl, (hm.children_nodup hp hl).sublist hsub,
      hsub.length_le.trans (hm.children_length hp hl), fun j c => h.onRow_parent hm hp hl⟩
  · obtain ⟨hxb, xd, hxd⟩ := h.live hm hp hl hx
    obtain ⟨xd₁, hx₁, -, hsame, -⟩ := h.survives hp hd hxd hxb
    rw [hx] at hx₁
    obtain rfl := Option.some.inj hx₁
    obtain ⟨lx, hlx, hnd, hlen, hrows⟩ := hm.children x xd hxd
    refine ⟨lx, by rw [Children, hsame hxp]; exact hlx, hnd, hlen, ?_⟩
    intro j c hjc
    exact h.onRow_other hm hp hl hd hxp hxb (hrows j c hjc)

theorem RowRemoved.hangs {m' : Model} {i d : Nat} (h : RowRemoved m m' p pd l i d)
    (hd : l[i]? = some d) {c : Nat} {cd' : NetDirNode} (hc : m'.nodes c = some cd') :
    (cd'.pNode = none ∧ m'.rootNode = some c) ∨
    ∃ n nd ln, cd'.pNode = some n ∧ n < c ∧ m'.nodes n = some nd ∧ Children nd ln ∧ c ∈ ln := by
  obtain ⟨hcb, cd, hcd⟩ := h.live hm hp hl hc
  obtain ⟨cd₁, hc₁, hpn, -⟩ := h.survives hp hd hcd hcb
  rw [hc] at hc₁
  obtain rfl := Option.some.inj hc₁
  rcases hm.parent c cd hcd with ⟨hnone, hroot⟩ | ⟨n, nd, ln, hn, hlt, hnd, hln, hcl⟩
  · exact Or.inl ⟨hpn.trans hnone, h.rest.2.1.trans hroot⟩
  by_cases hnp : n = p
  · subst hnp
    obtain ⟨cn, hcn, hcnl⟩ := h.parent
    rw [hp] at hnd
    obtain rfl := Option.some.inj hnd
    obtain rfl := children_unique hl hln
    refine Or.inr ⟨n, _, l.eraseIdx i, hpn.trans hn, hlt, hcn, hcnl, ?_⟩
    obtain ⟨j, hj⟩ := List.getElem?_of_mem hcl
    have hji : j ≠ i := by
      rintro rfl
      rw [hd] at hj
      exact hcb (Option.some.inj hj ▸ below_refl d)
    rw [List.mem_eraseIdx_iff_getElem?]
    exact ⟨j, hji, hj⟩
  · have hnb : ¬ Below (par m) n d := by
      intro hb
      exact hcb (Relation.ReflTransGen.head (by rw [par_eq hcd, hn]) hb)
    obtain ⟨nd', hnd', -, hsame, -⟩ := h.survives hp hd hnd hnb
    exact Or.inr ⟨n, nd', ln, hpn.trans hn, hlt, hnd', by rw [Children, hsame hnp]; exact hln, hcl⟩

theorem RowRemoved.wellFormed {m' : Model} {i d : Nat} (h : RowRemoved m m' p pd l i d)
    (hd : l[i]? = some d) : WellFormed m' := by
  refine ⟨h.root hm hp hl hd, ?_, fun x xd' hx => h.children hm hp hl hd hx,
    fun c cd' hc => h.hangs hm hp hl hd hc⟩
  intro x xd' hx
  obtain ⟨-, xd, hxd⟩ := h.live hm hp hl hx
  rw [h.rest.1]
  exact hm.fresh x xd hxd

end Remove

/-! ## Changing the data of a node -/

/-- Two versions of a node that hang in the tree in the same way. -/
def SameLinks (nd nd' : NetDirNode) : Prop :=
  nd'.pNode = nd.pNode ∧ nd'.childNodes = nd.childNodes ∧ nd'.onRow = nd.onRow

/-- Only data has changed between `m` and `m'`. -/
structure DataOnly (m m' : Model) : Prop where
  next : m'.next = m.next
  root : m'.rootNode = m.rootNode
  live : ∀ x xd, m.nodes x = some xd → ∃ xd', m'.nodes x = some xd' ∧ SameLinks xd xd'
  free : ∀ x, m.nodes x = none → m'.nodes x = none

theorem dataOnly_refl (m : Model) : DataOnly m m :=
  ⟨rfl, rfl, fun _ xd h => ⟨xd, h, rfl, rfl, rfl⟩, fun _ h => h⟩

theorem DataOnly.trans {m m' m'' : Model} (h : DataOnly m m') (h' : DataOnly m' m'') :
    DataOnly m m'' := by
  refine ⟨h'.next.trans h.next, h'.root.trans h.root, ?_, fun x hx => h'.free x (h.free x hx)⟩
  intro x xd hx
  obtain ⟨xd', hx', h1, h2, h3⟩ := h.live x xd hx
  obtain ⟨xd'', hx'', k1, k2, k3⟩ := h'.live x xd' hx'
  exact ⟨xd'', hx'', k1.trans h1, k2.trans h2, k3.trans h3⟩

theorem dataOnly_set {m : Model} {n : Nat} {nd nd' : NetDirNode} (hn : m.nodes n = some nd)
    (h : SameLinks nd nd') : DataOnly m (m.set n nd') := by
  refine ⟨rfl, rfl, ?_, ?_⟩
  · intro x xd hx
    by_cases hxn : x = n
    · subst hxn
      rw [hn] at hx
      obtain rfl := Option.some.inj hx
      exact ⟨nd', Model.set_nodes_self .., h⟩
    · exact ⟨xd, (Model.set_nodes_ne _ _ hxn).trans hx, rfl, rfl, rfl⟩
  · intro x hx
    have hxn : x ≠ n := by
      rintro rfl
      simp [hn] at hx
    rw [Model.set_nodes_ne _ _ hxn, hx]

theorem dataOnly_queue (m : Model) (q : List QueueElem) : DataOnly m { m with commandQueue := q } :=
  ⟨rfl, rfl, fun _ xd h => ⟨xd, h, rfl, rfl, rfl⟩, fun _ h => h⟩

theorem DataOnly.back {m m' : Model} (h : DataOnly m m') {x : Nat} {xd' : NetDirNode}
    (hx : m'.nodes x = some xd') : ∃ xd, m.nodes x = some xd ∧ SameLinks xd xd' := by
  cases hxd : m.nodes x with
  | none => simp [h.free x hxd] at hx
  | some xd =>
    obtain ⟨xd₁, hx₁, hs⟩ := h.live x xd hxd
    rw [hx] at hx₁
    exact ⟨xd, rfl, Option.some.inj hx₁ ▸ hs⟩

theorem DataOnly.par {m m' : Model} (h : DataOnly m m') : par m' = par m := by
  funext x
  cases hxd : m.nodes x with
  | none => simp [NullFxp.RemoteDirModel.par, hxd, h.free x hxd]
  | some xd =>
    obtain ⟨xd', hx', hs⟩ := h.live x xd hxd
    rw [par_eq hx', par_eq hxd, hs.1]

theorem SameLinks.children {nd nd' : NetDirNode} (h : SameLinks nd nd') (l : List Nat) :
    Children nd' l ↔ Children nd l := by
  rw [Children, Children, h.2.1]

theorem DataOnly.wellFormed {m m' : Model} (h : DataOnly m m') (hm : WellFormed m) :
    WellFormed m' := by
  refine ⟨?_, ?_, ?_, ?_⟩
  · obtain ⟨r, rd, hr, hrd, hp, hrow⟩ := hm.root
    obtain ⟨rd', hrd', h1, -, h3⟩ := h.live r rd hrd
    exact ⟨r, rd', h.root.trans hr, hrd', h1.trans hp, h3.trans hrow⟩
  · intro x xd' hx
    obtain ⟨xd, hxd, -⟩ := h.back hx
    rw [h.next]
    exact hm.fresh x xd hxd
  · intro n nd' hn
    obtain ⟨nd, hnd, hs⟩ := h.back hn
    obtain ⟨l, hl, hnodup, hlen, hrows⟩ := hm.children n nd hnd
    refine ⟨l, (hs.children l).mpr hl, hnodup, hlen, ?_⟩
    intro i c hic
    obtain ⟨cd, hcd, hp, hrow⟩ := hrows i c hic
    obtain ⟨cd', hcd', h1, -, h3⟩ := h.live c cd hcd
    exact ⟨cd', hcd', h1.trans hp, h3.trans hrow⟩
  · intro c cd' hc
    obtain ⟨cd, hcd, hs⟩ := h.back hc
    rcases hm.parent c cd hcd with ⟨hnone, hroot⟩ | ⟨n, nd, l, hn, hlt, hnd, hl, hmem⟩
    · exact Or.inl ⟨hs.1.trans hnone, h.root.trans hroot⟩
    · obtain ⟨nd', hnd', hns⟩ := h.live n nd hnd
      exact Or.inr ⟨n, nd', l, hs.1.trans hn, hlt, hnd', (hns.children l).mpr hl, hmem⟩

/-! ## Appending a row -/

/-- The model after `newRow` at the end of `p`. -/
def Model.withRow (m : Model) (p : Nat) (pd : NetDirNode) (row : Nat) : Model :=
  (m.alloc { NetDirNode.new with pNode := some p, onRow := short row }).set p
    { pd with childNodes := pd.childNodes.insert row (some m.next) }

section Append

variable {m : Model} {p : Nat} {pd : NetDirNode} {l : List Nat}

theorem newRow_eq (hp : m.nodes p = some pd) (hne : p ≠ m.next) (row : Nat) :
    m.newRow p row = if 0 ≤ short row then some (m.withRow p pd row) else none := by
  have hp' : (m.alloc { NetDirNode.new with pNode := some p, onRow := short row }).nodes p
      = some pd := by
    simp [Model.alloc, hne, hp]
  rw [Model.newRow]
  by_cases h : 0 ≤ short (row : Int)
  · simp only [h, guard_true, Option.pure_def, Option.bind_eq_bind, Option.bind_some, hp', if_true]
    rfl
  · simp only [h, guard_false, Option.bind_eq_bind, if_false]
    rfl

theorem withRow_nodes_self (row : Nat) : (m.withRow p pd row).nodes p =
    some { pd with childNodes := pd.childNodes.insert row (some m.next) } := by
  simp [Model.withRow]

theorem withRow_nodes_new (hne : p ≠ m.next) (row : Nat) : (m.withRow p pd row).nodes m.next =
    some { NetDirNode.new with pNode := some p, onRow := short row } := by
  rw [Model.withRow, Model.set_nodes_ne _ _ hne.symm]
  simp [Model.alloc]

theorem withRow_nodes_ne {x : Nat} (hxp : x ≠ p) (hx : x ≠ m.next) (row : Nat) :
    (m.withRow p pd row).nodes x = m.nodes x := by
  rw [Model.withRow, Model.set_nodes_ne _ _ hxp]
  simp [Model.alloc, hx]

variable (hm : WellFormed m) (hp : m.nodes p = some pd) (hl : Children pd l)

include hl in
theorem children_append (m : Model) :
    Children { pd with childNodes := pd.childNodes.insert l.length (some m.next) } (l ++ [m.next]) := by
  have := holds_push hl (some m.next)
  simpa [Children] using this

include hm hp

theorem withRow_live {x : Nat} {xd : NetDirNode} (hx : m.nodes x = some xd) (row : Nat) :
    ∃ xd', (m.withRow p pd row).nodes x = some xd' ∧ xd'.pNode = xd.pNode ∧
      xd'.onRow = xd.onRow ∧ (x ≠ p → xd'.childNodes = xd.childNodes) := by
  have hlt := hm.fresh x xd hx
  by_cases hxp : x = p
  · subst hxp
    rw [hp] at hx
    obtain rfl := Option.some.inj hx
    exact ⟨_, withRow_nodes_self row, rfl, rfl, fun h => absurd rfl h⟩
  · exact ⟨xd, (withRow_nodes_ne hxp (by omega) row).trans hx, rfl, rfl, fun _ => rfl⟩

omit hm in
theorem withRow_back {x : Nat} {xd' : NetDirNode} {row : Nat}
    (hx : (m.withRow p pd row).nodes x = some xd') :
    x = m.next ∨ ∃ xd, m.nodes x = some xd := by
  by_cases hxn : x = m.next
  · exact Or.inl hxn
  by_cases hxp : x = p
  · exact Or.inr ⟨pd, hxp ▸ hp⟩
  · rw [withRow_nodes_ne hxp hxn] at hx
    exact Or.inr ⟨xd', hx⟩

theorem withRow_onRow {x i c : Nat} (h : OnRow m x i c) (row : Nat) :
    OnRow (m.withRow p pd row) x i c := by
  obtain ⟨cd, hcd, hcp, hrow⟩ := h
  obtain ⟨cd', hcd', h1, h2, -⟩ := withRow_live hm hp hcd row
  exact ⟨cd', hcd', h1.trans hcp, h2.trans hrow⟩

include hl

theorem withRow_children_parent (hlen : l.length < 32768) :
    (l ++ [m.next]).Nodup ∧ (l ++ [m.next]).length ≤ 32768 ∧
      ∀ i c, (l ++ [m.next])[i]? = some c → OnRow (m.withRow p pd l.length) p i c := by
  have hne : p ≠ m.next := fun h => lt_irrefl _ (h ▸ hm.fresh p pd hp)
  have hfresh : m.next ∉ l := by
    intro h
    obtain ⟨i, hi⟩ := List.getElem?_of_mem h
    obtain ⟨cd, hcd, -⟩ := hm.children_onRow hp hl i _ hi
    exact lt_irrefl _ (hm.fresh _ cd hcd)
  refine ⟨?_, by simp; omega, ?_⟩
  · exact List.nodup_append.mpr ⟨hm.children_nodup hp hl, List.nodup_singleton _, by
      rintro a ha b hb rfl
      exact hfresh (List.mem_singleton.mp hb ▸ ha)⟩
  · intro i c hic
    rw [List.getElem?_append] at hic
    split at hic
    · exact withRow_onRow hm hp (hm.children_onRow hp hl i c hic) _
    · rw [List.getElem?_singleton] at hic
      split at hic
      · obtain rfl := Option.some.inj hic
        refine ⟨_, withRow_nodes_new hne _, rfl, ?_⟩
        rw [show i = l.length by omega]
        simp only [short_of_lt l.length hlen]
      · simp at hic

theorem withRow_children (hlen : l.length < 32768) {x : Nat} {xd' : NetDirNode}
    (hx : (m.withRow p pd l.length).nodes x = some xd') :
    ∃ lx, Children xd' lx ∧ lx.Nodup ∧ lx.length ≤ 32768 ∧
      ∀ i c, lx[i]? = some c → OnRow (m.withRow p pd l.length) x i c := by
  have hne : p ≠ m.next := fun h => lt_irrefl _ (h ▸ hm.fresh p pd hp)
  by_cases hxp : x = p
  · subst hxp
    rw [withRow_nodes_self] at hx
    obtain rfl := Option.some.inj hx
    exact ⟨l ++ [m.next], children_append hl m, withRow_children_parent hm hp hl hlen⟩
  rcases withRow_back hp hx with rfl | ⟨xd, hxd⟩
  · rw [withRow_nodes_new hne] at hx
    obtain rfl := Option.some.inj hx
    exact ⟨[], holds_empty, List.nodup_nil, by simp, by simp⟩
  · obtain ⟨xd₁, hx₁, -, -, hsame⟩ := withRow_live hm hp hxd l.length
    rw [hx] at hx₁
    obtain rfl := Option.some.inj hx₁
    obtain ⟨lx, hlx, hnd, hlenx, hrows⟩ := hm.children x xd hxd
    refine ⟨lx, by rw [Children, hsame hxp]; exact hlx, hnd, hlenx, ?_⟩
    intro i c hic
    exact withRow_onRow hm hp (hrows i c hic) _

theorem withRow_hangs {c : Nat} {cd' : NetDirNode}
    (hc : (m.withRow p pd l.length).nodes c = some cd') :
    (cd'.pNode = none ∧ (m.withRow p pd l.length).rootNode = some c) ∨
    ∃ n nd ln, cd'.pNode = some n ∧ n < c ∧ (m.withRow p pd l.length).nodes n = some nd ∧
      Children nd ln ∧ c ∈ ln := by
  rcases withRow_back hp hc with rfl | ⟨cd, hcd⟩
  · have hne : p ≠ m.next := fun h => lt_irrefl _ (h ▸ hm.fresh p pd hp)
    rw [withRow_nodes_new hne] at hc
    obtain rfl := Option.some.inj hc
    exact Or.inr ⟨p, _, l ++ [m.next], rfl, hm.fresh p pd hp, withRow_nodes_self _,
      children_append hl m, by simp⟩
  · obtain ⟨cd₁, hc₁, hpn, -, -⟩ := withRow_live hm hp hcd l.length
    rw [hc] at hc₁
    obtain rfl := Option.some.inj hc₁
    rcases hm.parent c cd hcd with ⟨hnone, hroot⟩ | ⟨n, nd, ln, hn, hlt, hnd, hln, hcl⟩
    · exact Or.inl ⟨hpn.trans hnone, hroot⟩
    by_cases hnp : n = p
    · subst hnp
      rw [hp] at hnd
      obtain rfl := Option.some.inj hnd
      obtain rfl := children_unique hl hln
      exact Or.inr ⟨n, _, l ++ [m.next], hpn.trans hn, hlt, withRow_nodes_self _,
        children_append hl m, by simp [hcl]⟩
    · obtain ⟨nd', hnd', -, -, hsame⟩ := withRow_live hm hp hnd l.length
      exact Or.inr ⟨n, nd', ln, hpn.trans hn, hlt, hnd', by
        rw [Children, hsame hnp]; exact hln, hcl⟩

theorem withRow_wellFormed (hlen : l.length < 32768) : WellFormed (m.withRow p pd l.length) := by
  refine ⟨?_, ?_, fun x xd' hx => withRow_children hm hp hl hlen hx,
    fun c cd' hc => withRow_hangs hm hp hl hc⟩
  · obtain ⟨r, rd, hr, hrd, hpn, hrow⟩ := hm.root
    obtain ⟨rd', hrd', h1, h2, -⟩ := withRow_live hm hp hrd l.length
    exact ⟨r, rd', hr, hrd', h1.trans hpn, h2.trans hrow⟩
  · intro x xd' hx
    show x < m.next + 1
    rcases withRow_back hp hx with rfl | ⟨xd, hxd⟩
    · omega
    · have := hm.fresh x xd hxd
      omega

end Append

end NullFxp.RemoteDirModel
