import NullFxp.RemoteDirModel.Rows

/-!
# A listing arrives

The two passes of `slotRemoteDirNodeRetrived` over the rows of a directory, each with its
loop invariant: `Swept` for the pass from the last row down that drops and updates rows,
`Grown` for the pass that appends the new names.
-/

open Forest RowMap

namespace NullFxp.RemoteDirModel

def PointsTo (i : ModelIndex) (p : Nat) : Prop := i.IsValid ∧ i.internalPointer = some p

section Index

variable {m : Model} {idx : ModelIndex} {p : Nat} {pd : NetDirNode} {l : List Nat}
  (hidx : PointsTo idx p) (hp : m.nodes p = some pd)

include hidx hp

theorem index_eq (hl : Children pd l) {i c : Nat} (hi : l[i]? = some c) :
    m.index i 0 idx = some ⟨i, 0, some c⟩ := by
  have hlt := (List.getElem?_eq_some_iff.mp hi).1
  rw [Model.index, if_pos hidx.1, hidx.2]
  have h1 : (0 : Int) < 4 := by decide
  have h2 : (i : Int) < l.length := by omega
  have h3 : (i : Int) ≠ -1 := by omega
  have h4 : (0 : Int) ≤ i := by omega
  simp only [h1, guard_true, Option.pure_def, Option.bind_eq_bind, Option.bind_some, Model.deref, hp,
    children_count hl, h2, h3, false_and, not_false_eq_true, h4, if_true, Int.toNat_natCast,
    children_childAt hl, hi]

theorem rowCount_eq (hname : pd.fileName ≠ ['.', 'w', 'i', 'c', 'd']) :
    m.rowCount idx =
      (m.requestListing p pd.retrFlag).map fun m' => (pd.childNodes.count, m') := by
  rw [Model.rowCount, if_pos hidx.1, hidx.2]
  simp only [Option.bind_eq_bind, Option.bind_some, hp, hname, ne_eq, not_false_eq_true,
    guard_true, Option.pure_def]
  cases m.requestListing p pd.retrFlag <;> rfl

theorem rowCount_wicd (hname : pd.fileName = ['.', 'w', 'i', 'c', 'd']) :
    m.rowCount idx = none := by
  rw [Model.rowCount, if_pos hidx.1, hidx.2]
  simp only [Option.bind_eq_bind, Option.bind_some, hp, hname, ne_eq, not_true_eq_false,
    guard_false]
  rfl

theorem refreshRow_remove (hl : Children pd l) {es : List NetDirNode} {i c : Nat} {cd : NetDirNode}
    (hi : l[i]? = some c) (hc : m.nodes c = some cd) (he : Model.entryFor es cd.fileName = none) :
    m.refreshRow idx es i = m.removeRow p i := by
  rw [Model.refreshRow, index_eq hidx hp hl hi]
  simp only [Option.bind_eq_bind, Option.bind_some, Model.deref, hc, he, Model.removeRows, hidx.2, hp]
  simp

theorem refreshRow_update (hl : Children pd l) {es : List NetDirNode} {i c : Nat}
    {cd e : NetDirNode} (hi : l[i]? = some c) (hc : m.nodes c = some cd)
    (he : Model.entryFor es cd.fileName = some e) :
    m.refreshRow idx es i = some (m.set c { cd.copyFrom e with onRow := cd.onRow }) := by
  have hv : ModelIndex.IsValid ⟨i, 0, some c⟩ := ⟨by simp, by simp⟩
  rw [Model.refreshRow, index_eq hidx hp hl hi]
  simp only [Option.bind_eq_bind, Option.bind_some, Model.deref, hc, he, Model.setDataNode, hv,
    if_true]

omit hidx hp in
theorem requestListing_settled (h : ¬ WantsListing pd.retrFlag) :
    m.requestListing p pd.retrFlag = some m := by
  rw [Model.requestListing, if_neg h]

end Index

/-! ## The first pass -/

def entryOf (m : Model) (es : List NetDirNode) (c : Nat) : Option NetDirNode :=
  (m.nodes c).bind fun cd => Model.entryFor es cd.fileName

/-- `x` is in or below a row of `rows` that is not listed. -/
def Dropped (m : Model) (es : List NetDirNode) (rows : List Nat) (x : Nat) : Prop :=
  ∃ c ∈ rows, entryOf m es c = none ∧ Below (par m) x c

theorem Dropped.of_succ {m : Model} {es : List NetDirNode} {l : List Nat} {i x : Nat}
    (h : Dropped m es (l.drop (i + 1)) x) : Dropped m es (l.drop i) x := by
  obtain ⟨c, hc, hnone, hx⟩ := h
  exact ⟨c, List.drop_subset_drop_left l (Nat.le_succ i) hc, hnone, hx⟩

/-! The rows while they are swept from the end: the first ones as they were, of the rest
those that stay. -/

section TakeFilter

variable {α : Type} (keep : α → Bool) {l : List α} {i : Nat}

theorem getElem?_take_append_filter {j : Nat} (hi : i < l.length) (hj : j ≤ i) :
    (l.take (i + 1) ++ (l.drop (i + 1)).filter keep)[j]? = l[j]? := by
  rw [List.getElem?_append_left (by rw [List.length_take]; omega), List.getElem?_take, if_pos (by omega)]

variable {keep}

theorem mem_of_mem_take_append_filter {x : α} (h : x ∈ l.take i ++ (l.drop i).filter keep) :
    x ∈ l := by
  rcases List.mem_append.mp h with h | h
  · exact List.mem_of_mem_take h
  · exact List.mem_of_mem_drop (List.mem_of_mem_filter h)

theorem eraseIdx_take_append_filter (hi : i < l.length) (hk : keep l[i] = false) :
    (l.take (i + 1) ++ (l.drop (i + 1)).filter keep).eraseIdx i
      = l.take i ++ (l.drop i).filter keep := by
  have hlen : (l.take i).length = i := by rw [List.length_take]; omega
  have hfilter : (l.drop i).filter keep = (l.drop (i + 1)).filter keep := by
    rw [List.drop_eq_getElem_cons hi, List.filter_cons_of_neg (by rw [hk]; simp)]
  rw [List.take_succ_eq_append_getElem hi, List.append_assoc,
    List.eraseIdx_append_of_length_le (by omega), hlen, Nat.sub_self, List.singleton_append,
    List.eraseIdx_cons_zero, hfilter]

end TakeFilter

/-- The rows from `i` on have been compared with the listing. -/
structure Swept (m m' : Model) (p : Nat) (pd : NetDirNode) (l : List Nat) (es : List NetDirNode)
    (i : Nat) : Prop where
  wellFormed : WellFormed m'
  rest : SameRest m m'
  parent : ∃ cn, m'.nodes p = some { pd with childNodes := cn } ∧
    Holds cn ((l.take i ++ (l.drop i).filter fun c => (entryOf m es c).isSome).map some)
  todo : ∀ c ∈ l.take i, m'.nodes c = m.nodes c
  kept : ∀ c ∈ l.drop i, ∀ cd e, m.nodes c = some cd → Model.entryFor es cd.fileName = some e →
    ∃ row, m'.nodes c = some { cd.copyFrom e with onRow := row }
  gone : ∀ x, Dropped m es (l.drop i) x → m'.nodes x = none
  frame : ∀ x, x ≠ p → x ∉ l → ¬ Dropped m es (l.drop i) x → m'.nodes x = m.nodes x

section Sweep

variable {m : Model} (hm : WellFormed m) {p : Nat} {pd : NetDirNode} {l : List Nat}
  (hp : m.nodes p = some pd) (hl : Children pd l) {es : List NetDirNode}

theorem entryOf_eq {c : Nat} {cd : NetDirNode} (h : m.nodes c = some cd) :
    entryOf m es c = Model.entryFor es cd.fileName := by
  rw [entryOf, h, Option.bind_some]

include hm hp hl

theorem swept_start (es : List NetDirNode) : Swept m m p pd l es l.length := by
  refine ⟨hm, sameRest_refl m, ⟨pd.childNodes, hp, ?_⟩, fun _ _ => rfl, ?_, ?_, fun _ _ _ _ => rfl⟩
  · simpa [Children] using hl
  · simp
  · rintro x ⟨c, hc, -⟩
    simp at hc

theorem Swept.par_sub {m' : Model} {i : Nat} (h : Swept m m' p pd l es i) {x y : Nat}
    (hx : par m' x = some y) : par m x = some y := by
  obtain ⟨xd, hxd, hxy⟩ := par_some hx
  by_cases hxp : x = p
  · subst hxp
    obtain ⟨cn, hcn, -⟩ := h.parent
    rw [hcn] at hxd
    obtain rfl := Option.some.inj hxd
    rw [par_eq hp]
    exact hxy
  by_cases hdrop : Dropped m es (l.drop i) x
  · simp [h.gone x hdrop] at hxd
  by_cases hxl : x ∈ l
  · rw [← List.take_append_drop i l, List.mem_append] at hxl
    rcases hxl with hxl | hxl
    · rw [h.todo x hxl] at hxd
      rw [par_eq hxd, hxy]
    · obtain ⟨j, hj⟩ := List.getElem?_of_mem (List.mem_of_mem_drop hxl)
      obtain ⟨cd, hcd, -⟩ := hm.children_onRow hp hl j x hj
      cases he : Model.entryFor es cd.fileName with
      | none => exact absurd ⟨x, hxl, by rw [entryOf_eq hcd, he], below_refl x⟩ hdrop
      | some e =>
        obtain ⟨row, hrow⟩ := h.kept x hxl cd e hcd he
        rw [hrow] at hxd
        obtain rfl := Option.some.inj hxd
        rw [par_eq hcd]
        exact hxy
  · rw [h.frame x hxp hxl hdrop] at hxd
    rw [par_eq hxd, hxy]

theorem Swept.below_iff {m' : Model} {i : Nat} (h : Swept m m' p pd l es i) {c : Nat}
    (hc : c ∈ l.take i) (x : Nat) : Below (par m') x c ↔ Below (par m) x c := by
  constructor
  · exact below_mono fun _ _ => h.par_sub hm hp hl
  · have hcl := List.mem_of_mem_take hc
    have hpc := hm.child_lt hp hl hcl
    apply below_of_agree
    intro y hy
    rw [par, par]
    congr 1
    have hcy := le_of_below hm.par_lt hy
    by_cases hyc : y = c
    · exact hyc ▸ h.todo c hc
    have hone : ∀ d ∈ l, Below (par m) y d → d = c := fun d hd hyd =>
      below_siblings hm.par_lt ((hm.mem_children hp hl d).mp hd)
        ((hm.mem_children hp hl c).mp hcl) hyd hy
    refine h.frame y (by omega) (fun hyl => hyc (hone y hyl (below_refl y))) ?_
    rintro ⟨d, hd, -, hyd⟩
    obtain rfl := hone d (List.mem_of_mem_drop hd) hyd
    have hnd := hm.children_nodup hp hl
    rw [← List.take_append_drop i l] at hnd
    exact List.disjoint_of_nodup_append hnd hc hd

theorem Swept.update {m' : Model} {i c : Nat} {cd e : NetDirNode} (h : Swept m m' p pd l es (i + 1))
    (hi : i < l.length) (hic : l[i] = c) (hc : m.nodes c = some cd)
    (he : Model.entryFor es cd.fileName = some e) :
    Swept m (m'.set c { cd.copyFrom e with onRow := cd.onRow }) p pd l es i := by
  have htake : l.take (i + 1) = l.take i ++ [c] := by rw [List.take_succ_eq_append_getElem hi, hic]
  have hdrop : l.drop i = c :: l.drop (i + 1) := by rw [List.drop_eq_getElem_cons hi, hic]
  have hnd := hm.children_nodup hp hl
  rw [← List.take_append_drop i l, hdrop] at hnd
  have hcl : c ∈ l := hic ▸ List.getElem_mem hi
  have hpc : p ≠ c := fun he => hm.not_mem_children_self hp hl (he ▸ hcl)
  have hc' : m'.nodes c = some cd := (h.todo c (by simp [htake])).trans hc
  have hentry : entryOf m es c = some e := by rw [entryOf_eq hc, he]
  have hdropped : ∀ x, Dropped m es (l.drop i) x → Dropped m es (l.drop (i + 1)) x := by
    rintro x ⟨d, hd, hnone, hx⟩
    rw [hdrop, List.mem_cons] at hd
    rcases hd with rfl | hd
    · simp [hentry] at hnone
    · exact ⟨d, hd, hnone, hx⟩
  have hdata : DataOnly m' (m'.set c { cd.copyFrom e with onRow := cd.onRow }) :=
    dataOnly_set hc' ⟨rfl, rfl, rfl⟩
  refine ⟨hdata.wellFormed h.wellFormed, h.rest, ?_, ?_, ?_, ?_, ?_⟩
  · obtain ⟨cn, hcn, hholds⟩ := h.parent
    refine ⟨cn, (Model.set_nodes_ne _ _ hpc).trans hcn, ?_⟩
    simpa [htake, hdrop, hentry] using hholds
  · intro d hd
    have hne : d ≠ c := by
      rintro rfl
      exact List.disjoint_of_nodup_append hnd hd (by simp)
    rw [Model.set_nodes_ne _ _ hne]
    exact h.todo d (by simp [htake, hd])
  · intro d hd dd e' hdd he'
    by_cases hdc : d = c
    · subst hdc
      rw [hc] at hdd
      obtain rfl := Option.some.inj hdd
      rw [he] at he'
      obtain rfl := Option.some.inj he'
      exact ⟨cd.onRow, Model.set_nodes_self ..⟩
    · rw [hdrop, List.mem_cons] at hd
      obtain ⟨row, hrow⟩ := h.kept d (hd.resolve_left hdc) dd e' hdd he'
      exact ⟨row, (Model.set_nodes_ne _ _ hdc).trans hrow⟩
  · intro x hx
    have hgone := h.gone x (hdropped x hx)
    have hxc : x ≠ c := by
      rintro rfl
      simp [hc'] at hgone
    rw [Model.set_nodes_ne _ _ hxc, hgone]
  · intro x hxp hxl hx
    rw [Model.set_nodes_ne _ _ (by rintro rfl; exact hxl hcl)]
    exact h.frame x hxp hxl fun hdropped => hx hdropped.of_succ

theorem Swept.remove {m' m'' : Model} {i c : Nat} {cd : NetDirNode} {cn : RowMap NodePtr}
    (h : Swept m m' p pd l es (i + 1)) (hi : i < l.length) (hic : l[i] = c)
    (hc : m.nodes c = some cd) (he : Model.entryFor es cd.fileName = none)
    (hcn : m'.nodes p = some { pd with childNodes := cn })
    (hrows : Children { pd with childNodes := cn }
      (l.take (i + 1) ++ (l.drop (i + 1)).filter fun c => (entryOf m es c).isSome))
    (hr : RowRemoved m' m'' p { pd with childNodes := cn }
      (l.take (i + 1) ++ (l.drop (i + 1)).filter fun c => (entryOf m es c).isSome) i c) :
    Swept m m'' p pd l es i := by
  have htake : l.take (i + 1) = l.take i ++ [c] := by rw [List.take_succ_eq_append_getElem hi, hic]
  have hdrop : l.drop i = c :: l.drop (i + 1) := by rw [List.drop_eq_getElem_cons hi, hic]
  have hentry : entryOf m es c = none := by rw [entryOf_eq hc, he]
  have hat : (l.take (i + 1) ++ (l.drop (i + 1)).filter fun c => (entryOf m es c).isSome)[i]?
      = some c := by
    rw [getElem?_take_append_filter _ hi le_rfl, List.getElem?_eq_getElem hi, hic]
  have hbelow := h.below_iff hm hp hl (c := c) (by simp [htake])
  refine ⟨hr.wellFormed h.wellFormed hcn hrows hat, h.rest.trans hr.rest, ?_, ?_, ?_, ?_, ?_⟩
  · obtain ⟨cn', hcn', hholds⟩ := hr.parent
    refine ⟨cn', hcn', ?_⟩
    rwa [eraseIdx_take_append_filter hi (by simp [hic, hentry])] at hholds
  · intro d hd
    obtain ⟨j, hj⟩ := List.getElem?_of_mem hd
    have hjlt : j < i := by
      have := (List.getElem?_eq_some_iff.mp hj).1
      rw [List.length_take] at this
      omega
    rw [List.getElem?_take_of_lt hjlt] at hj
    have hj' : (l.take (i + 1) ++ (l.drop (i + 1)).filter
        fun c => (entryOf m es c).isSome)[j]? = some d := by
      rw [getElem?_take_append_filter _ hi (by omega), hj]
    obtain ⟨dd, hdd, -⟩ := h.wellFormed.children_onRow hcn hrows j d hj'
    rw [hr.row j d dd hj' (by omega) hdd, if_neg (by omega), ← hdd]
    exact h.todo d (by simp [htake, hd])
  · intro d hd dd e hdd hde
    have hdc : d ≠ c := by
      rintro rfl
      rw [hc] at hdd
      obtain rfl := Option.some.inj hdd
      simp [he] at hde
    rw [hdrop, List.mem_cons] at hd
    have hd := hd.resolve_left hdc
    obtain ⟨row, hrow⟩ := h.kept d hd dd e hdd hde
    have hmem : d ∈ l.take (i + 1) ++ (l.drop (i + 1)).filter fun c => (entryOf m es c).isSome := by
      refine List.mem_append_right _ (List.mem_filter.mpr ⟨hd, ?_⟩)
      rw [entryOf_eq hdd, hde]
      rfl
    obtain ⟨j, hj⟩ := List.getElem?_of_mem hmem
    have hji : j ≠ i := by
      rintro rfl
      rw [hat] at hj
      exact hdc (Option.some.inj hj).symm
    rw [hr.row j d _ hj hji hrow]
    split
    · exact ⟨_, rfl⟩
    · exact ⟨row, rfl⟩
  · rintro x ⟨d, hd, hnone, hx⟩
    rw [hdrop, List.mem_cons] at hd
    rcases hd with rfl | hd
    · exact hr.gone x ((hbelow x).mpr hx)
    · have hgone := h.gone x ⟨d, hd, hnone, hx⟩
      by_contra hlive
      obtain ⟨xd, hxd⟩ := Option.ne_none_iff_exists'.mp hlive
      obtain ⟨-, xd', hxd'⟩ := hr.live h.wellFormed hcn hrows hxd
      simp [hgone] at hxd'
  · intro x hxp hxl hx
    have hxc : ¬ Below (par m') x c := fun hb =>
      hx ⟨c, by simp [hdrop], hentry, (hbelow x).mp hb⟩
    rw [hr.frame x hxp (fun hmem => hxl (mem_of_mem_take_append_filter hmem)) hxc]
    exact h.frame x hxp hxl fun hdropped => hx hdropped.of_succ

theorem refreshRow_spec {idx : ModelIndex} (hidx : PointsTo idx p) {m' : Model} {i : Nat}
    (h : Swept m m' p pd l es (i + 1)) (hi : i < l.length) :
    ∃ m'', m'.refreshRow idx es i = some m'' ∧ Swept m m'' p pd l es i := by
  obtain ⟨cn, hcn, hrows⟩ := h.parent
  obtain ⟨cd, hcd, -⟩ := hm.children_onRow hp hl i l[i] (List.getElem?_eq_getElem hi)
  have hmem : l[i] ∈ l.take (i + 1) := by
    rw [List.take_succ_eq_append_getElem hi]
    exact List.mem_append_right _ (List.mem_singleton_self _)
  have hcd' : m'.nodes l[i] = some cd := (h.todo l[i] hmem).trans hcd
  have hat : (l.take (i + 1) ++ (l.drop (i + 1)).filter fun c => (entryOf m es c).isSome)[i]?
      = some l[i] := by
    rw [getElem?_take_append_filter _ hi le_rfl, List.getElem?_eq_getElem hi]
  cases he : Model.entryFor es cd.fileName with
  | some e =>
    exact ⟨_, refreshRow_update hidx hcn hrows hat hcd' he, h.update hm hp hl hi rfl hcd he⟩
  | none =>
    obtain ⟨m'', hm'', hr⟩ := removeRow_spec h.wellFormed hcn hrows i _ hat
    refine ⟨m'', ?_, h.remove hm hp hl hi rfl hcd he hcn hrows hr⟩
    rw [refreshRow_remove hidx hcn hrows hat hcd' he, hm'']

theorem refreshRow_loop_spec {idx : ModelIndex} (hidx : PointsTo idx p) (k : Nat)
    (hk : k ≤ l.length) {m' : Model} (h : Swept m m' p pd l es k) :
    ∃ m'', (List.range k).reverse.foldlM (fun m i => m.refreshRow idx es i) m' = some m'' ∧
      Swept m m'' p pd l es 0 := by
  induction k generalizing m' with
  | zero => exact ⟨m', rfl, h⟩
  | succ k ih =>
    obtain ⟨m1, h1, hs⟩ := refreshRow_spec hm hp hl hidx h (by omega)
    obtain ⟨m2, h2, hs2⟩ := ih (by omega) hs
    refine ⟨m2, ?_, hs2⟩
    rw [List.range_succ, List.reverse_append, List.reverse_singleton, List.singleton_append,
      List.foldlM_cons, h1]
    exact h2

end Sweep

/-! ## The second pass -/

def nameOf (m : Model) (c : Nat) : QString := ((m.nodes c).map fun cd => cd.fileName).getD []

theorem nameOf_eq {m : Model} {c : Nat} {cd : NetDirNode} (h : m.nodes c = some cd) :
    nameOf m c = cd.fileName := by
  rw [nameOf, h]
  rfl

/-- The entries of a listing with a name that is not in `names`, the first of each name. -/
def newEntries : List QString → List NetDirNode → List NetDirNode
  | _, [] => []
  | names, e :: es =>
    if e.fileName ∈ names then newEntries names es
    else e :: newEntries (names ++ [e.fileName]) es

/-- The node that `appendRow` makes from an entry. -/
def appended (p row : Nat) (e : NetDirNode) : NetDirNode :=
  { NetDirNode.new.copyFrom e with pNode := some p, onRow := row }

/-- The rows of `p` are `l`, and after them one new row for each of `added`. -/
structure Grown (m m' : Model) (p : Nat) (pd : NetDirNode) (l : List Nat)
    (added : List NetDirNode) : Prop where
  wellFormed : WellFormed m'
  next : m'.next = m.next + added.length
  root : m'.rootNode = m.rootNode
  queue : m'.commandQueue = m.commandQueue
  parent : ∃ cn, m'.nodes p = some { pd with childNodes := cn } ∧
    Holds cn ((l ++ List.range' m.next added.length).map some)
  new : ∀ k e, added[k]? = some e → m'.nodes (m.next + k) = some (appended p (l.length + k) e)
  frame : ∀ x, x ≠ p → x < m.next → m'.nodes x = m.nodes x

section Grow

variable {m : Model} (hm : WellFormed m) {p : Nat} {pd : NetDirNode} {l : List Nat}
  (hp : m.nodes p = some pd) (hl : Children pd l) {idx : ModelIndex} (hidx : PointsTo idx p)

include hm hp hl

theorem grown_start : Grown m m p pd l [] :=
  ⟨hm, rfl, rfl, rfl, ⟨pd.childNodes, hp, by simpa [Children] using hl⟩, by simp,
    fun _ _ _ => rfl⟩

include hidx

theorem hasRow_eq (name : QString) (rows : List Nat) (hrows : ∀ j ∈ rows, j < l.length) :
    m.hasRow idx name rows = some (rows.any fun j => l[j]?.any fun c => nameOf m c = name) := by
  induction rows with
  | nil => rfl
  | cons j rows ih =>
    have hlt : j < l.length := hrows j (by simp)
    have hj : l[j]? = some l[j] := List.getElem?_eq_getElem hlt
    obtain ⟨cd, hcd, -⟩ := hm.children_onRow hp hl j _ hj
    rw [Model.hasRow, index_eq hidx hp hl hj, List.any_cons, hj]
    simp only [Option.bind_eq_bind, Option.bind_some, Model.deref, hcd, Option.any_some,
      nameOf_eq hcd]
    by_cases hname : cd.fileName = name
    · simp [hname]
    · simp [hname, ih fun k hk => hrows k (List.mem_cons_of_mem _ hk)]

theorem hasRow_iff (name : QString) :
    m.hasRow idx name (List.range l.length) = some (decide (name ∈ l.map (nameOf m))) := by
  rw [hasRow_eq hm hp hl hidx name _ (by simp)]
  congr 1
  rw [Bool.eq_iff_iff]
  simp only [List.any_eq_true, List.mem_range, decide_eq_true_eq, List.mem_map]
  constructor
  · rintro ⟨j, hj, h⟩
    rw [List.getElem?_eq_getElem hj, Option.any_some, decide_eq_true_eq] at h
    exact ⟨l[j], List.getElem_mem hj, h⟩
  · rintro ⟨c, hc, h⟩
    obtain ⟨j, hj⟩ := List.getElem?_of_mem hc
    exact ⟨j, (List.getElem?_eq_some_iff.mp hj).1, by simp [hj, h]⟩

theorem insertRows_end : m.insertRows l.length 1 idx =
    if 0 ≤ short l.length then some (m.withRow p pd l.length) else none := by
  have hne : p ≠ m.next := fun h => lt_irrefl _ (h ▸ hm.fresh p pd hp)
  have hmove : m.moveRows p l.length 1 = some m := by
    rw [Model.moveRows, hp]
    simp only [Option.bind_eq_bind, Option.bind_some, children_count hl, lt_irrefl, if_false]
  rw [Model.insertRows, if_pos hidx.1, hidx.2, ← newRow_eq hp hne]
  simp only [le_refl, guard_true, Option.pure_def, Option.bind_eq_bind, Option.bind_some, hp,
    children_count hl, hmove, List.range'_one, List.foldlM_cons, List.foldlM_nil]
  exact Option.bind_fun_some _

section Append

variable (hname : pd.fileName ≠ ['.', 'w', 'i', 'c', 'd']) (hflag : ¬ WantsListing pd.retrFlag)
  {e : NetDirNode}

include hname hflag

theorem appendRow_found (he : e.fileName ∈ l.map (nameOf m)) : m.appendRow idx e = some m := by
  rw [Model.appendRow, rowCount_eq hidx hp hname, requestListing_settled hflag]
  simp only [Option.map_some, Option.bind_eq_bind, Option.bind_some, children_count hl,
    hasRow_iff hm hp hl hidx, he, decide_true, if_true]

theorem appendRow_new (he : e.fileName ∉ l.map (nameOf m)) :
    m.appendRow idx e = if l.length < 32768 then
      some ((m.withRow p pd l.length).set m.next (appended p l.length e)) else none := by
  have hne : p ≠ m.next := fun h => lt_irrefl _ (h ▸ hm.fresh p pd hp)
  have hins := insertRows_end hm hp hl hidx
  rw [Model.appendRow, rowCount_eq hidx hp hname, requestListing_settled hflag]
  simp only [Option.map_some, Option.bind_eq_bind, Option.bind_some, children_count hl,
    hasRow_iff hm hp hl hidx, he, decide_false, Bool.false_eq_true, if_false, hins]
  have hlen := hm.children_length hp hl
  by_cases hlt : l.length < 32768
  · have hv : ModelIndex.IsValid ⟨l.length, 0, some m.next⟩ := ⟨by simp, by simp⟩
    have hindex : (m.withRow p pd l.length).index l.length 0 idx = some ⟨l.length, 0, some m.next⟩ :=
      index_eq hidx (withRow_nodes_self _) (children_append hl m) (by simp)
    rw [short_of_lt _ hlt, if_pos (by omega), if_pos hlt]
    simp only [Option.bind_some, hindex, Model.setDataNode, hv, if_true, Option.bind_eq_bind,
      withRow_nodes_new hne, short_of_lt _ hlt]
    rfl
  · have hneg : ¬ 0 ≤ short l.length := by
      rw [show l.length = 32768 by omega, short_limit]
      omega
    rw [if_neg hlt, if_neg hneg]
    rfl

end Append

omit hl hidx in
theorem Grown.append {m' : Model} {added : List NetDirNode} (h : Grown m m' p pd l added)
    {cn : RowMap NodePtr} (hcn : m'.nodes p = some { pd with childNodes := cn })
    (hrows : Children { pd with childNodes := cn } (l ++ List.range' m.next added.length))
    (hlen : l.length + added.length < 32768) (e : NetDirNode) :
    Grown m ((m'.withRow p { pd with childNodes := cn } (l.length + added.length)).set m'.next
      (appended p (l.length + added.length) e)) p pd l (added ++ [e]) := by
  have hne : p ≠ m'.next := fun h' => lt_irrefl _ (h' ▸ h.wellFormed.fresh p _ hcn)
  have hlen' : (l ++ List.range' m.next added.length).length = l.length + added.length := by simp
  have hwf := withRow_wellFormed h.wellFormed hcn hrows (by omega)
  rw [hlen'] at hwf
  have hnew : (m'.withRow p { pd with childNodes := cn } (l.length + added.length)).nodes m'.next =
      some { NetDirNode.new with
        pNode := some p, onRow := short (l.length + added.length : ℕ) } :=
    withRow_nodes_new hne _
  refine ⟨(dataOnly_set hnew ?_).wellFormed hwf, ?_, h.root, h.queue, ?_, ?_, ?_⟩
  · exact ⟨rfl, rfl, by simp only [appended, short_of_lt _ hlen]⟩
  · show m'.next + 1 = _
    rw [h.next, List.length_append, List.length_singleton]
    omega
  · refine ⟨_, (Model.set_nodes_ne _ _ hne).trans (withRow_nodes_self _), ?_⟩
    have := children_append hrows m'
    rw [hlen'] at this
    rw [List.length_append, List.length_singleton, List.range'_concat, ← List.append_assoc, Nat.one_mul,
      ← h.next]
    exact this
  · intro k e' hk
    rw [List.getElem?_append] at hk
    split at hk
    · rename_i hlt
      rw [Model.set_nodes_ne _ _ (by rw [h.next]; omega),
        withRow_nodes_ne _ (by rw [h.next]; omega)]
      · exact h.new k e' hk
      · have := hm.fresh p pd hp
        omega
    · rw [List.getElem?_singleton] at hk
      split at hk
      · obtain rfl := Option.some.inj hk
        rw [show k = added.length by omega, ← h.next, Model.set_nodes_self]
      · simp at hk
  · intro x hxp hx
    have := h.next
    rw [Model.set_nodes_ne _ _ (by omega), withRow_nodes_ne hxp (by omega), h.frame x hxp hx]

omit hidx in
theorem Grown.names {m' : Model} {added : List NetDirNode} (h : Grown m m' p pd l added) :
    (l ++ List.range' m.next added.length).map (nameOf m')
      = l.map (nameOf m) ++ added.map fun e => e.fileName := by
  rw [List.map_append]
  congr 1
  · apply List.map_congr_left
    intro c hc
    have hcp : c ≠ p := fun he => hm.not_mem_children_self hp hl (he ▸ hc)
    obtain ⟨j, hj⟩ := List.getElem?_of_mem hc
    obtain ⟨cd, hcd, -⟩ := hm.children_onRow hp hl j c hj
    rw [nameOf, nameOf, h.frame c hcp (hm.fresh c cd hcd)]
  · apply List.ext_getElem
    · simp
    · intro k hk hk'
      rw [List.getElem_map, List.getElem_map, List.getElem_range', Nat.one_mul,
        nameOf_eq (h.new k _ (List.getElem?_eq_getElem (by simpa using hk')))]
      rfl

theorem appendRow_loop_spec (hname : pd.fileName ≠ ['.', 'w', 'i', 'c', 'd'])
    (hflag : ¬ WantsListing pd.retrFlag) (es : List NetDirNode) {m' : Model}
    {added : List NetDirNode} (h : Grown m m' p pd l added) (new : List NetDirNode)
    (hnew : newEntries (l.map (nameOf m) ++ added.map fun e => e.fileName) es = new) :
    (l.length + added.length + new.length ≤ 32768 →
      ∃ m'', es.foldlM (fun m e => m.appendRow idx e) m' = some m'' ∧
        Grown m m'' p pd l (added ++ new)) ∧
    (32768 < l.length + added.length + new.length →
      es.foldlM (fun m e => m.appendRow idx e) m' = none) := by
  induction es generalizing m' added new with
  | nil =>
    subst hnew
    obtain ⟨cn, hcn, hrows⟩ := h.parent
    have hlen := h.wellFormed.children_length hcn hrows
    refine ⟨fun _ => ⟨m', rfl, by simpa [newEntries] using h⟩, ?_⟩
    simp [newEntries] at hlen ⊢
    omega
  | cons e es ih =>
    obtain ⟨cn, hcn, hrows⟩ := h.parent
    have hnames := h.names hm hp hl
    rw [List.foldlM_cons]
    by_cases he : e.fileName ∈ l.map (nameOf m) ++ added.map fun e => e.fileName
    · rw [newEntries, if_pos he] at hnew
      rw [← hnames] at he
      rw [appendRow_found h.wellFormed hcn hrows hidx hname hflag he]
      exact ih h new hnew
    · rw [newEntries, if_neg he] at hnew
      rw [← hnames] at he
      rw [appendRow_new h.wellFormed hcn hrows hidx hname hflag he]
      have hlen : (l ++ List.range' m.next added.length).length = l.length + added.length := by simp
      rw [hlen]
      obtain ⟨new', rfl⟩ : ∃ new', new = e :: new' := ⟨_, hnew.symm⟩
      have hnew' := (List.cons.inj hnew).2
      by_cases hlt : l.length + added.length < 32768
      · rw [if_pos hlt, Option.bind_eq_bind, Option.bind_some]
        have hg := h.append hm hp hcn hrows hlt e
        have := ih hg new' (by simpa using hnew')
        simp only [List.length_append, List.length_cons, List.length_nil, List.append_assoc,
          List.singleton_append] at this ⊢
        refine ⟨fun hle => this.1 (by omega), fun hgt => this.2 (by omega)⟩
      · rw [if_neg hlt]
        refine ⟨fun hle => ?_, fun _ => rfl⟩
        simp only [List.length_cons] at hle
        omega

end Grow

theorem newEntries_congr {a b : List QString} {es : List NetDirNode}
    (h : ∀ e ∈ es, e.fileName ∈ a ↔ e.fileName ∈ b) : newEntries a es = newEntries b es := by
  induction es generalizing a b with
  | nil => rfl
  | cons e es ih =>
    have hes : ∀ e ∈ es, e.fileName ∈ a ↔ e.fileName ∈ b := fun e' he' =>
      h e' (List.mem_cons_of_mem _ he')
    rw [newEntries, newEntries]
    by_cases he : e.fileName ∈ a
    · rw [if_pos he, if_pos ((h e (by simp)).mp he), ih hes]
    · rw [if_neg he, if_neg (fun hb => he ((h e (by simp)).mpr hb)), ih]
      intro e' he'
      simp only [List.mem_append, hes e' he']

theorem entryFor_isSome {es : List NetDirNode} {name : QString} :
    (Model.entryFor es name).isSome ↔ name ∈ es.map fun e => e.fileName := by
  rw [Model.entryFor, List.find?_isSome]
  simp

theorem entryFor_some {es : List NetDirNode} {name : QString} {e : NetDirNode}
    (h : Model.entryFor es name = some e) : e ∈ es ∧ e.fileName = name := by
  refine ⟨List.mem_reverse.mp (List.mem_of_find?_eq_some h), ?_⟩
  simpa using List.find?_some h

end NullFxp.RemoteDirModel
