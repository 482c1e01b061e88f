import NullFxp.RemoteDirModel.Refresh

/-!
# What a delivered listing does to the tree

`Refreshed` puts the two passes together, and the slot does just that, unless one of its
assertions fails.
-/

open Forest RowMap

namespace NullFxp.RemoteDirModel

/-! ## The index of the directory -/

section Current

variable {m : Model} (hm : WellFormed m) {p : Nat} {pd : NetDirNode} (hp : m.nodes p = some pd)

include hm hp

theorem persistent_spec : PointsTo (m.persistent p) p ∧ (m.persistent p).column = 0 ∧
    ∃ i, m.parent (m.persistent p) = some i ∧
      m.index (m.persistent p).row 0 i = some (m.persistent p) := by
  rcases hm.parent p pd hp with ⟨hnone, hroot⟩ | ⟨q, qd, l, hq, -, hqd, hl, hmem⟩
  · have hper : m.persistent p = ⟨0, 0, some p⟩ := by
      rw [Model.persistent]
      simp only [hp, hnone]
    have hv : ModelIndex.IsValid ⟨0, 0, some p⟩ := ⟨by simp, by simp⟩
    rw [hper]
    refine ⟨⟨hv, rfl⟩, rfl, .invalid, ?_, ?_⟩
    · simp only [Model.parent, hv, if_true, Model.deref, hp, Option.bind_eq_bind, Option.bind_some,
        hnone]
    · rw [Model.index, if_neg (by decide), hroot]
      rfl
  · obtain ⟨e, he, hrow⟩ : ∃ e, qd.childNodes.entries.find? (fun e => e.2 == some p) = some e ∧
        l[e.1]? = some p := by
      obtain ⟨i, hi⟩ := List.getElem?_of_mem hmem
      have hlook : (some p : NodePtr) ∈ qd.childNodes.lookup i := by
        rw [children_lookup hl, hi]
        rfl
      have hin := AList.mem_lookup_iff.mp hlook
      have hsome : (qd.childNodes.entries.find? fun e => e.2 == some p).isSome :=
        List.find?_isSome.mpr ⟨_, hin, beq_self_eq_true (some p)⟩
      obtain ⟨e, he⟩ := Option.isSome_iff_exists.mp hsome
      refine ⟨e, he, ?_⟩
      have hval : e.2 = some p := by simpa using List.find?_some he
      have hmem' : (some p : NodePtr) ∈ qd.childNodes.lookup e.1 :=
        AList.mem_lookup_iff.mpr (hval ▸ List.mem_of_find?_eq_some he)
      rw [children_lookup hl] at hmem'
      simpa using hmem'
    have hper : m.persistent p = ⟨e.1, 0, some p⟩ := by
      rw [Model.persistent]
      simp only [hp, hq, hqd, he]
    have hv : ModelIndex.IsValid ⟨e.1, 0, some p⟩ := ⟨by simp, by simp⟩
    -- The parent is the root or sits in a row, so that its own row is never negative.
    have hpos : 0 ≤ qd.onRow := by
      rcases hm.parent q qd hqd with ⟨-, hroot⟩ | ⟨k, kd, lk, -, -, hkd, hlk, hqk⟩
      · obtain ⟨r, rd, hr, hrd, -, hrow0⟩ := hm.root
        rw [hroot] at hr
        obtain rfl := Option.some.inj hr
        rw [hqd] at hrd
        obtain rfl := Option.some.inj hrd
        omega
      · obtain ⟨i, hi⟩ := List.getElem?_of_mem hqk
        obtain ⟨qd', hqd', -, hrowq⟩ := hm.children_onRow hkd hlk i q hi
        rw [hqd] at hqd'
        obtain rfl := Option.some.inj hqd'
        omega
    rw [hper]
    refine ⟨⟨hv, rfl⟩, rfl, ⟨qd.onRow, 0, some q⟩, ?_, ?_⟩
    · have hne : qd.onRow ≠ -1 := by omega
      simp only [Model.parent, hv, if_true, Model.deref, hp, Option.bind_eq_bind, Option.bind_some,
        hq, hqd, ne_eq, hne, not_false_eq_true, guard_true, Option.pure_def]
    · exact index_eq ⟨⟨hpos, by simp⟩, rfl⟩ hqd hl hrow

end Current

/-! ## Asking for a listing -/

/-- The `READDIR` that a node with flag `flag` gets from `rowCount`. -/
def asked (p : Nat) (flag : UInt8) : List QueueElem :=
  if WantsListing flag then [⟨p, p, .readdir, []⟩] else []

def NetDirNode.updating (nd : NetDirNode) : NetDirNode :=
  { nd with prevFlag := nd.retrFlag, retrFlag := popUpdating }

def NetDirNode.afterQuery (nd : NetDirNode) : NetDirNode :=
  if WantsListing nd.retrFlag then nd.updating else nd

theorem afterQuery_settled (nd : NetDirNode) : ¬ WantsListing nd.afterQuery.retrFlag := by
  rw [NetDirNode.afterQuery]
  split
  · show ¬ WantsListing popUpdating
    decide
  · assumption

theorem addNode_eq {m : Model} {p : Nat} {pd : NetDirNode} (hp : m.nodes p = some pd) (q : Nat) :
    m.addNode p q = some { m.set p pd.updating with
      commandQueue := m.commandQueue ++ [⟨p, q, .readdir, []⟩] } := by
  rw [Model.addNode, hp]
  rfl

/-- The model after `rowCount` of the node `p`: at most its flags have changed, and the queue. -/
def Model.queried (m : Model) (p : Nat) (pd : NetDirNode) : Model :=
  { m.set p pd.afterQuery with commandQueue := m.commandQueue ++ asked p pd.retrFlag }

section Query

variable {m : Model} {p : Nat} {pd : NetDirNode} (hp : m.nodes p = some pd)

theorem queried_nodes_self : (m.queried p pd).nodes p = some pd.afterQuery :=
  Model.set_nodes_self ..

theorem queried_nodes_ne {x : Nat} (h : x ≠ p) : (m.queried p pd).nodes x = m.nodes x :=
  Model.set_nodes_ne _ _ h

theorem afterQuery_fileName (nd : NetDirNode) : nd.afterQuery.fileName = nd.fileName := by
  rw [NetDirNode.afterQuery]
  split <;> rfl

theorem afterQuery_sameLinks (nd : NetDirNode) : SameLinks nd nd.afterQuery := by
  rw [NetDirNode.afterQuery]
  split <;> exact ⟨rfl, rfl, rfl⟩

include hp

theorem requestListing_eq : m.requestListing p pd.retrFlag = some (m.queried p pd) := by
  rw [Model.requestListing, Model.queried, NetDirNode.afterQuery, asked]
  by_cases h : WantsListing pd.retrFlag
  · rw [if_pos h, if_pos h, if_pos h, addNode_eq hp]
  · rw [if_neg h, if_neg h, if_neg h, List.append_nil]
    congr 1
    rw [Model.set, ← hp, Function.update_eq_self]

theorem dataOnly_queried : DataOnly m (m.queried p pd) :=
  (dataOnly_set hp (afterQuery_sameLinks pd)).trans (dataOnly_queue _ _)

theorem queried_fileName (x : Nat) : ((m.queried p pd).nodes x).map (fun nd => nd.fileName) =
    (m.nodes x).map fun nd => nd.fileName := by
  by_cases hx : x = p
  · subst hx
    rw [queried_nodes_self, hp, Option.map_some, Option.map_some, afterQuery_fileName]
  · rw [queried_nodes_ne hx]

theorem nameOf_queried : nameOf (m.queried p pd) = nameOf m := by
  funext x
  rw [nameOf, nameOf, queried_fileName hp]

theorem entryOf_queried (es : List NetDirNode) : entryOf (m.queried p pd) es = entryOf m es := by
  have key : ∀ m : Model, ∀ x, entryOf m es x =
      ((m.nodes x).map fun nd => nd.fileName).bind (Model.entryFor es) := by
    intro m x
    rw [entryOf]
    cases m.nodes x <;> rfl
  funext x
  rw [key, key, queried_fileName hp]

theorem dropped_queried (es : List NetDirNode) (rows : List Nat) (x : Nat) :
    Dropped (m.queried p pd) es rows x ↔ Dropped m es rows x := by
  rw [Dropped, Dropped, entryOf_queried hp, (dataOnly_queried hp).par]

end Query

/-! ## The slot -/

def keptRows (m : Model) (es : List NetDirNode) (l : List Nat) : List Nat :=
  l.filter fun c => (entryOf m es c).isSome

def addedEntries (m : Model) (es : List NetDirNode) (l : List Nat) : List NetDirNode :=
  newEntries (l.map (nameOf m)) es

/-- The listing `es` has been applied to the node `p` with the rows `l`. -/
structure Refreshed (m m' : Model) (p : Nat) (pd : NetDirNode) (l : List Nat)
    (es : List NetDirNode) : Prop where
  wellFormed : WellFormed m'
  next : m'.next = m.next + (addedEntries m es l).length
  root : m'.rootNode = m.rootNode
  queue : m'.commandQueue = m.commandQueue ++ asked p pd.retrFlag
  parent : ∃ cn, m'.nodes p = some { pd with
      childNodes := cn, prevFlag := pd.afterQuery.retrFlag, retrFlag := popNewest } ∧
    Holds cn ((keptRows m es l ++ List.range' m.next (addedEntries m es l).length).map some)
  kept : ∀ c ∈ l, ∀ cd e, m.nodes c = some cd → Model.entryFor es cd.fileName = some e →
    ∃ row, m'.nodes c = some { cd.copyFrom e with onRow := row }
  new : ∀ k e, (addedEntries m es l)[k]? = some e →
    m'.nodes (m.next + k) = some (appended p ((keptRows m es l).length + k) e)
  gone : ∀ x, Dropped m es l x → m'.nodes x = none
  frame : ∀ x, x ≠ p → x ∉ l → x < m.next → ¬ Dropped m es l x → m'.nodes x = m.nodes x

section Slot

variable {m : Model} (hm : WellFormed m) {p : Nat} {pd : NetDirNode} {l : List Nat}
  (hp : m.nodes p = some pd) (hl : Children pd l)

include hm hp

theorem slotRemoteDirNodeRetrived_wicd (hname : pd.fileName = ['.', 'w', 'i', 'c', 'd'])
    (es : List NetDirNode) : m.slotRemoteDirNodeRetrived p p es = none := by
  obtain ⟨hidx, hcol, i, hpar, hindex⟩ := persistent_spec hm hp
  rw [Model.slotRemoteDirNodeRetrived]
  simp only [hp, hcol, hpar, hindex, Option.bind_eq_bind, Option.bind_some,
    rowCount_wicd hidx hp hname, Option.bind_none]

include hl

theorem names_of_swept {m' : Model} {es : List NetDirNode} (h : Swept m m' p pd l es 0) :
    newEntries ((keptRows m es l).map (nameOf m')) es = addedEntries m es l := by
  have hname : ∀ c ∈ keptRows m es l, nameOf m' c = nameOf m c := by
    intro c hc
    obtain ⟨hcl, hsome⟩ := List.mem_filter.mp hc
    obtain ⟨j, hj⟩ := List.getElem?_of_mem hcl
    obtain ⟨cd, hcd, -⟩ := hm.children_onRow hp hl j c hj
    rw [entryOf_eq hcd] at hsome
    obtain ⟨e, he⟩ := Option.isSome_iff_exists.mp hsome
    obtain ⟨row, hrow⟩ := h.kept c hcl cd e hcd he
    rw [nameOf_eq hrow, nameOf_eq hcd]
    exact (entryFor_some he).2
  apply newEntries_congr
  intro e he
  rw [List.map_congr_left hname]
  simp only [List.mem_map]
  constructor
  · rintro ⟨c, hc, hce⟩
    exact ⟨c, List.mem_of_mem_filter hc, hce⟩
  · rintro ⟨c, hc, hce⟩
    refine ⟨c, List.mem_filter.mpr ⟨hc, ?_⟩, hce⟩
    obtain ⟨j, hj⟩ := List.getElem?_of_mem hc
    obtain ⟨cd, hcd, -⟩ := hm.children_onRow hp hl j c hj
    rw [entryOf_eq hcd, entryFor_isSome, ← nameOf_eq hcd, hce]
    exact List.mem_map_of_mem he

theorem refreshed_of_passes {m1 m2 : Model} {es : List NetDirNode} {cn cn' : RowMap NodePtr}
    (hs : Swept (m.queried p pd) m1 p pd.afterQuery l es 0)
    (hg : Grown m1 m2 p { pd.afterQuery with childNodes := cn } (keptRows m es l)
      (addedEntries m es l))
    (hcn : m2.nodes p = some { pd.afterQuery with childNodes := cn' })
    (hrows : Holds cn' ((keptRows m es l ++
      List.range' m1.next (addedEntries m es l).length).map some)) :
    Refreshed m (m2.set p { pd.afterQuery with
      childNodes := cn', prevFlag := pd.afterQuery.retrFlag, retrFlag := popNewest }) p pd l es := by
  have hnext : m1.next = m.next := hs.rest.1
  have hdata : DataOnly m2 (m2.set p { pd.afterQuery with
      childNodes := cn', prevFlag := pd.afterQuery.retrFlag, retrFlag := popNewest }) :=
    dataOnly_set hcn ⟨rfl, rfl, rfl⟩
  have hdrop := dropped_queried hp es l
  have hold : ∀ c ∈ l, c ≠ p ∧ c < m.next := by
    intro c hc
    obtain ⟨j, hj⟩ := List.getElem?_of_mem hc
    obtain ⟨cd, hcd, -⟩ := hm.children_onRow hp hl j c hj
    exact ⟨fun he => hm.not_mem_children_self hp hl (he ▸ hc), hm.fresh c cd hcd⟩
  have hpn := hm.fresh p pd hp
  refine ⟨hdata.wellFormed hg.wellFormed, ?_, ?_, ?_, ⟨cn', ?_, ?_⟩, ?_, ?_, ?_, ?_⟩
  · rw [Model.set_next, hg.next, hnext]
  · rw [Model.set_rootNode, hg.root, hs.rest.2.1]
    rfl
  · rw [Model.set_commandQueue, hg.queue, hs.rest.2.2]
    rfl
  · rw [Model.set_nodes_self, NetDirNode.afterQuery]
    split <;> rfl
  · rwa [← hnext]
  · intro c hc cd e hcd he
    obtain ⟨hcp, hcn⟩ := hold c hc
    obtain ⟨row, hrow⟩ := hs.kept c hc cd e ((queried_nodes_ne hcp).trans hcd) he
    exact ⟨row, by rw [Model.set_nodes_ne _ _ hcp, hg.frame c hcp (by omega), hrow]⟩
  · intro k e hk
    have hne : m.next + k ≠ p := by omega
    rw [Model.set_nodes_ne _ _ hne, ← hnext, hg.new k e hk]
  · intro x hx
    have hgone := hs.gone x ((hdrop x).mpr hx)
    obtain ⟨c, hc, -, hxc⟩ := hx
    have hpc := hm.child_lt hp hl hc
    have hcx := le_of_below hm.par_lt hxc
    have hlive : x < m.next := by
      rcases below_par hxc with rfl | ⟨y, hy, -⟩
      · exact (hold _ hc).2
      · obtain ⟨xd, hxd, -⟩ := par_some hy
        exact hm.fresh x xd hxd
    rw [Model.set_nodes_ne _ _ (by omega), hg.frame x (by omega) (by omega), hgone]
  · intro x hxp hxl hx hxd
    rw [Model.set_nodes_ne _ _ hxp, hg.frame x hxp (by omega),
      hs.frame x hxp hxl (fun h => hxd ((hdrop x).mp h)), queried_nodes_ne hxp]

/-- **The slot.** It refreshes the directory, as long as the rows have numbers. -/
theorem slotRemoteDirNodeRetrived_spec (hname : pd.fileName ≠ ['.', 'w', 'i', 'c', 'd'])
    (es : List NetDirNode) :
    ((keptRows m es l).length + (addedEntries m es l).length ≤ 32768 →
      ∃ m', m.slotRemoteDirNodeRetrived p p es = some m' ∧ Refreshed m m' p pd l es) ∧
    (32768 < (keptRows m es l).length + (addedEntries m es l).length →
      m.slotRemoteDirNodeRetrived p p es = none) := by
  obtain ⟨hidx, hcol, i, hpar, hindex⟩ := persistent_spec hm hp
  have hm0 := (dataOnly_queried hp).wellFormed hm
  have hp0 : (m.queried p pd).nodes p = some pd.afterQuery := queried_nodes_self
  have hl0 : Children pd.afterQuery l := ((afterQuery_sameLinks pd).children l).mpr hl
  have hname0 : pd.afterQuery.fileName ≠ ['.', 'w', 'i', 'c', 'd'] := by rwa [afterQuery_fileName]
  have hflag := afterQuery_settled pd
  obtain ⟨m1, h1, hs⟩ := refreshRow_loop_spec hm0 hp0 hl0 hidx l.length le_rfl
    (swept_start hm0 hp0 hl0 es)
  obtain ⟨cn, hcn, hrows⟩ := hs.parent
  have hrows : Holds cn ((keptRows m es l).map some) := by
    simpa [keptRows, entryOf_queried hp] using hrows
  have hnew : newEntries ((keptRows m es l).map (nameOf m1)) es = addedEntries m es l := by
    have := names_of_swept hm0 hp0 hl0 hs
    simpa only [keptRows, addedEntries, entryOf_queried hp, nameOf_queried hp] using this
  have hgrow := appendRow_loop_spec hs.wellFormed hcn hrows hidx hname0 hflag es
    (grown_start hs.wellFormed hcn hrows) (addedEntries m es l) (by simpa using hnew)
  simp only [List.length_nil, Nat.add_zero, List.nil_append] at hgrow
  have hslot : m.slotRemoteDirNodeRetrived p p es =
      (es.foldlM (fun m' e => Model.appendRow m' (m.persistent p) e) m1).bind fun m2 =>
        (m2.nodes p).bind fun nd =>
          some (m2.set p { nd with prevFlag := nd.retrFlag, retrFlag := popNewest }) := by
    rw [Model.slotRemoteDirNodeRetrived]
    simp only [hp, hcol, hpar, hindex, Option.bind_eq_bind, Option.bind_some, rowCount_eq hidx hp hname,
      requestListing_eq hp, Option.map_some, rowCount_eq hidx hp0 hname0,
      requestListing_settled hflag, children_count hl0, h1]
  rw [hslot]
  refine ⟨fun hle => ?_, fun hgt => by rw [hgrow.2 hgt, Option.bind_none]⟩
  obtain ⟨m2, h2, hg⟩ := hgrow.1 hle
  obtain ⟨cn', hcn', hrows'⟩ := hg.parent
  refine ⟨_, ?_, refreshed_of_passes hm hp hl hs hg hcn' hrows'⟩
  rw [h2, Option.bind_some, hcn']
  rfl

end Slot

theorem slot_refreshed {m m' : Model} (hm : WellFormed m) {p : Nat} {pd : NetDirNode} {l : List Nat}
    (hp : m.nodes p = some pd) (hl : Children pd l) {es : List NetDirNode}
    (h : m.slotRemoteDirNodeRetrived p p es = some m') : Refreshed m m' p pd l es := by
  by_cases hname : pd.fileName = ['.', 'w', 'i', 'c', 'd']
  · simp [slotRemoteDirNodeRetrived_wicd hm hp hname] at h
  · obtain ⟨hok, hfail⟩ := slotRemoteDirNodeRetrived_spec hm hp hl hname es
    by_cases hle : (keptRows m es l).length + (addedEntries m es l).length ≤ 32768
    · obtain ⟨m'', h', href⟩ := hok hle
      rw [h] at h'
      exact Option.some.inj h' ▸ href
    · simp [hfail (by omega)] at h

/-! ## The tree after a refresh is the listing -/

theorem newEntries_sub {names : List QString} {es : List NetDirNode} {e : NetDirNode}
    (h : e ∈ newEntries names es) : e ∈ es ∧ e.fileName ∉ names := by
  induction es generalizing names with
  | nil => simp [newEntries] at h
  | cons a es ih =>
    rw [newEntries] at h
    split at h
    · obtain ⟨h1, h2⟩ := ih h
      exact ⟨List.mem_cons_of_mem _ h1, h2⟩
    · rcases List.mem_cons.mp h with rfl | h
      · exact ⟨by simp, by assumption⟩
      · obtain ⟨h1, h2⟩ := ih h
        exact ⟨List.mem_cons_of_mem _ h1, fun hn => h2 (by simp [hn])⟩

theorem newEntries_names (names : List QString) (es : List NetDirNode) :
    (newEntries names es).map (fun e => e.fileName) =
      ((es.map fun e => e.fileName).filter fun n => n ∉ names).eraseDups := by
  induction es generalizing names with
  | nil => simp [newEntries]
  | cons e es ih =>
    rw [newEntries]
    by_cases he : e.fileName ∈ names
    · rw [if_pos he, ih, List.map_cons, List.filter_cons_of_neg (by simp [he])]
    · rw [if_neg he, List.map_cons, ih, List.map_cons, List.filter_cons_of_pos (by simp [he]),
        List.eraseDups_cons, List.filter_filter]
      congr 3
      funext n
      rw [Bool.eq_iff_iff]
      simp [and_comm]

theorem newEntries_nodup (names : List QString) (es : List NetDirNode) :
    ((newEntries names es).map fun e => e.fileName).Nodup := by
  induction es generalizing names with
  | nil => simp [newEntries]
  | cons e es ih =>
    rw [newEntries]
    split
    · exact ih names
    · rw [List.map_cons, List.nodup_cons]
      refine ⟨fun h => ?_, ih _⟩
      obtain ⟨e', he', heq⟩ := List.mem_map.mp h
      exact (newEntries_sub he').2 (by simp [heq])

/-- No directory has two children of one name. -/
def DistinctNames (m : Model) : Prop :=
  ∀ n nd l, m.nodes n = some nd → Children nd l → (l.map (nameOf m)).Nodup

def listedNames (es : List NetDirNode) : List QString := es.map fun e => e.fileName

def stayingRows (m : Model) (es : List NetDirNode) (l : List Nat) : List Nat :=
  l.filter fun c => (listedNames es).contains (nameOf m c)

/-- The children `l` of `p` have become the listing `es`: those that are still listed come
first and stay the nodes they were, and the nodes `new` are added behind them. -/
structure MatchesListing (m m' : Model) (p : Nat) (l new : List Nat) (es : List NetDirNode) :
    Prop where
  parent : ∃ pd', m'.nodes p = some pd' ∧ pd'.retrFlag = popNewest ∧
    Children pd' (stayingRows m es l ++ new)
  once : ((stayingRows m es l ++ new).map (nameOf m')).Nodup
  names : ∀ name, name ∈ (stayingRows m es l ++ new).map (nameOf m') ↔ name ∈ listedNames es
  kept : ∀ c ∈ stayingRows m es l, ∀ cd, m.nodes c = some cd →
    ∃ cd', m'.nodes c = some cd' ∧ cd'.fileName = cd.fileName ∧ cd'.childNodes = cd.childNodes
  fresh : ∀ c ∈ new, m.nodes c = none
  order : new.map (nameOf m') =
    ((listedNames es).filter fun name => name ∉ l.map (nameOf m)).eraseDups
  data : ∀ c ∈ stayingRows m es l ++ new, ∃ cd, m'.nodes c = some cd ∧
    ∃ e ∈ es, cd.fileName = e.fileName ∧ cd.fullPath = e.fullPath ∧ cd.attrib = e.attrib
  frame : ∀ x, x ≠ p → x ∉ l → x ∉ new →
    (∀ c ∈ l, nameOf m c ∉ listedNames es → ¬ Below (par m) x c) → m'.nodes x = m.nodes x

section Matches

variable {m : Model} (hm : WellFormed m) {p : Nat} {pd : NetDirNode} {l : List Nat}
  (hp : m.nodes p = some pd) (hl : Children pd l)

include hm hp hl

theorem child_live {c : Nat} (hc : c ∈ l) : ∃ cd, m.nodes c = some cd := by
  obtain ⟨j, hj⟩ := List.getElem?_of_mem hc
  obtain ⟨cd, hcd, -⟩ := hm.children_onRow hp hl j c hj
  exact ⟨cd, hcd⟩

theorem entryOf_isSome_iff (es : List NetDirNode) {c : Nat} (hc : c ∈ l) :
    (entryOf m es c).isSome ↔ nameOf m c ∈ listedNames es := by
  obtain ⟨cd, hcd⟩ := child_live hm hp hl hc
  rw [entryOf_eq hcd, entryFor_isSome, nameOf_eq hcd, listedNames]

theorem keptRows_eq (es : List NetDirNode) : keptRows m es l = stayingRows m es l := by
  rw [keptRows, stayingRows]
  apply List.filter_congr
  intro c hc
  rw [Bool.eq_iff_iff, entryOf_isSome_iff hm hp hl es hc, List.contains_iff_mem]

theorem Refreshed.names {m' : Model} {es : List NetDirNode} (h : Refreshed m m' p pd l es) :
    (keptRows m es l).map (nameOf m') = (keptRows m es l).map (nameOf m) ∧
    (List.range' m.next (addedEntries m es l).length).map (nameOf m') =
      (addedEntries m es l).map fun e => e.fileName := by
  constructor
  · apply List.map_congr_left
    intro c hc
    obtain ⟨hcl, hsome⟩ := List.mem_filter.mp hc
    obtain ⟨cd, hcd⟩ := child_live hm hp hl hcl
    rw [entryOf_eq hcd] at hsome
    obtain ⟨e, he⟩ := Option.isSome_iff_exists.mp hsome
    obtain ⟨row, hrow⟩ := h.kept c hcl cd e hcd he
    rw [nameOf_eq hrow, nameOf_eq hcd]
    exact (entryFor_some he).2
  · apply List.ext_getElem
    · simp
    · intro k hk hk'
      rw [List.getElem_map, List.getElem_map, List.getElem_range', Nat.one_mul,
        nameOf_eq (h.new k _ (List.getElem?_eq_getElem (by simpa using hk')))]
      rfl

theorem refresh_names (hnd : (l.map (nameOf m)).Nodup) (es : List NetDirNode) :
    ((keptRows m es l).map (nameOf m) ++ (addedEntries m es l).map fun e => e.fileName).Nodup ∧
    ∀ name, name ∈ (keptRows m es l).map (nameOf m) ++
      ((addedEntries m es l).map fun e => e.fileName) ↔ name ∈ listedNames es := by
  have hmem : ∀ name, name ∈ (addedEntries m es l).map (fun e => e.fileName) ↔
      name ∈ listedNames es ∧ name ∉ l.map (nameOf m) := by
    intro name
    rw [addedEntries, newEntries_names, List.mem_eraseDups, List.mem_filter, listedNames,
      decide_eq_true_eq]
  have hkept : ∀ name, name ∈ (keptRows m es l).map (nameOf m) ↔
      name ∈ listedNames es ∧ name ∈ l.map (nameOf m) := by
    intro name
    rw [keptRows_eq hm hp hl, stayingRows]
    simp only [List.mem_map, List.mem_filter, List.contains_iff_mem]
    constructor
    · rintro ⟨c, ⟨hc, hname⟩, rfl⟩
      exact ⟨hname, c, hc, rfl⟩
    · rintro ⟨hname, c, hc, rfl⟩
      exact ⟨c, ⟨hc, hname⟩, rfl⟩
  constructor
  · rw [List.nodup_append']
    refine ⟨hnd.sublist (List.filter_sublist.map _), newEntries_nodup _ _, ?_⟩
    intro name h1 h2
    exact ((hmem name).mp h2).2 ((hkept name).mp h1).2
  · intro name
    rw [List.mem_append, hmem, hkept]
    tauto

theorem Refreshed.matches {m' : Model} {es : List NetDirNode} (h : Refreshed m m' p pd l es)
    (hnd : (l.map (nameOf m)).Nodup) :
    MatchesListing m m' p l (List.range' m.next (addedEntries m es l).length) es := by
  obtain ⟨hold, hnew⟩ := h.names hm hp hl
  obtain ⟨honce, hnames⟩ := refresh_names hm hp hl hnd es
  rw [← hold, ← hnew, ← List.map_append] at honce hnames
  have hkept := keptRows_eq hm hp hl es
  -- what the two passes have left in a row of either kind
  have hstay : ∀ c ∈ stayingRows m es l, ∀ cd, m.nodes c = some cd →
      ∃ e ∈ es, e.fileName = cd.fileName ∧
        ∃ row, m'.nodes c = some { cd.copyFrom e with onRow := row } := by
    intro c hc cd hcd
    obtain ⟨hcl, hlisted⟩ := List.mem_filter.mp hc
    rw [List.contains_iff_mem, nameOf_eq hcd, listedNames, ← entryFor_isSome] at hlisted
    obtain ⟨e, he⟩ := Option.isSome_iff_exists.mp hlisted
    obtain ⟨hes, hname⟩ := entryFor_some he
    exact ⟨e, hes, hname, h.kept c hcl cd e hcd he⟩
  have hadded : ∀ c ∈ List.range' m.next (addedEntries m es l).length,
      ∃ e ∈ es, ∃ row, m'.nodes c = some (appended p row e) := by
    intro c hc
    obtain ⟨k, hk, rfl⟩ := List.mem_range'.mp hc
    rw [Nat.one_mul]
    have hat := List.getElem?_eq_getElem hk
    exact ⟨_, (newEntries_sub (List.mem_of_getElem? hat)).1, _, h.new k _ hat⟩
  have hfree : ∀ x, m.next ≤ x → m.nodes x = none := by
    intro x hx
    by_contra hlive
    obtain ⟨xd, hxd⟩ := Option.ne_none_iff_exists'.mp hlive
    have := hm.fresh x xd hxd
    omega
  refine ⟨?_, ?_, ?_, ?_, ?_, ?_, ?_, ?_⟩
  · obtain ⟨cn, hcn, hholds⟩ := h.parent
    exact ⟨_, hcn, rfl, by rw [← hkept]; exact hholds⟩
  · rw [← hkept]
    exact honce
  · rw [← hkept]
    exact hnames
  · intro c hc cd hcd
    obtain ⟨e, -, hname, row, hrow⟩ := hstay c hc cd hcd
    exact ⟨_, hrow, hname, rfl⟩
  · intro c hc
    obtain ⟨k, -, rfl⟩ := List.mem_range'.mp hc
    exact hfree _ (by omega)
  · rw [hnew, addedEntries, newEntries_names]
    rfl
  · intro c hc
    rcases List.mem_append.mp hc with hc | hc
    · obtain ⟨cd, hcd⟩ := child_live hm hp hl (List.mem_of_mem_filter hc)
      obtain ⟨e, hes, -, row, hrow⟩ := hstay c hc cd hcd
      exact ⟨_, hrow, e, hes, rfl, rfl, rfl⟩
    · obtain ⟨e, hes, row, hrow⟩ := hadded c hc
      exact ⟨_, hrow, e, hes, rfl, rfl, rfl⟩
  · intro x hxp hxl hxnew hx
    by_cases hlt : x < m.next
    · refine h.frame x hxp hxl hlt ?_
      rintro ⟨c, hc, hnone, hxc⟩
      refine hx c hc (fun hlisted => ?_) hxc
      rw [← entryOf_isSome_iff hm hp hl es hc, hnone] at hlisted
      simp at hlisted
    · rw [hfree x (by omega)]
      by_contra hlive
      obtain ⟨xd, hxd⟩ := Option.ne_none_iff_exists'.mp hlive
      have hx' := h.wellFormed.fresh x xd hxd
      rw [h.next] at hx'
      exact hxnew (List.mem_range'_1.mpr ⟨by omega, by omega⟩)

end Matches

/-- **A refresh makes the directory equal to the listing**, whatever flag it has, unless it has
the one name that `rowCount` does not accept. -/
theorem refresh_matches_listing (m : Model) (hm : WellFormed m) (hnames : DistinctNames m) (p : Nat)
    (pd : NetDirNode) (l : List Nat) (hp : m.nodes p = some pd) (hl : Children pd l)
    (es : List NetDirNode) (hes : es.length ≤ 32767) :
    (∃ m' new, m.slotRemoteDirNodeRetrived p p es = some m' ∧ MatchesListing m m' p l new es) ↔
      pd.fileName ≠ ['.', 'w', 'i', 'c', 'd'] := by
  constructor
  · rintro ⟨m', new, hslot, -⟩ hname
    rw [slotRemoteDirNodeRetrived_wicd hm hp hname es] at hslot
    simp at hslot
  · intro hname
    obtain ⟨honce, hlisted⟩ := refresh_names hm hp hl (hnames p pd l hp hl) es
    have hlen : (keptRows m es l).length + (addedEntries m es l).length ≤ es.length := by
      have hsub := List.subperm_of_subset honce fun name h => (hlisted name).mp h
      simpa [listedNames] using hsub.length_le
    obtain ⟨m', hslot, href⟩ :=
      (slotRemoteDirNodeRetrived_spec hm hp hl hname es).1 (by omega)
    exact ⟨m', _, hslot, href.matches hm hp hl (hnames p pd l hp hl)⟩

/-! A small tree: the root and one directory that waits for its listing. -/

def smallRoot : NetDirNode :=
  { NetDirNode.new with
    retrFlag := popNewest
    childNodes := (∅ : RowMap NodePtr).insert 0 (some 1)
    onRow := 0
    fileName := ['/'] }

def smallDir (name : QString) : NetDirNode :=
  { NetDirNode.new with
    retrFlag := popUpdating
    pNode := some 0
    onRow := 0
    fullPath := '/' :: name
    fileName := name }

def smallTree (name : QString) : Model where
  nodes n := if n = 0 then some smallRoot else if n = 1 then some (smallDir name) else none
  next := 2
  rootNode := some 0
  commandQueue := []

theorem smallTree_cases {name : QString} {n : Nat} {nd : NetDirNode}
    (h : (smallTree name).nodes n = some nd) :
    n = 0 ∧ nd = smallRoot ∨ n = 1 ∧ nd = smallDir name := by
  simp only [smallTree] at h
  split at h
  · exact Or.inl ⟨by assumption, (Option.some.inj h).symm⟩
  · split at h
    · exact Or.inr ⟨by assumption, (Option.some.inj h).symm⟩
    · simp at h

theorem smallRoot_children : Children smallRoot [1] :=
  holds_push (holds_empty (α := NodePtr)) (some 1)

theorem smallDir_children (name : QString) : Children (smallDir name) [] := holds_empty

theorem smallTree_wellFormed (name : QString) : WellFormed (smallTree name) := by
  refine ⟨⟨0, smallRoot, rfl, rfl, rfl, rfl⟩, ?_, ?_, ?_⟩
  · intro n nd hn
    rcases smallTree_cases hn with ⟨rfl, -⟩ | ⟨rfl, -⟩
    · exact Nat.zero_lt_two
    · exact Nat.one_lt_two
  · intro n nd hn
    rcases smallTree_cases hn with ⟨rfl, rfl⟩ | ⟨rfl, rfl⟩
    · refine ⟨[1], smallRoot_children, by simp, by simp, ?_⟩
      intro i c hic
      obtain ⟨rfl, rfl⟩ : i = 0 ∧ c = 1 := by
        rw [List.getElem?_singleton] at hic
        split at hic
        · exact ⟨by assumption, (Option.some.inj hic).symm⟩
        · simp at hic
      exact ⟨smallDir name, rfl, rfl, rfl⟩
    · exact ⟨[], smallDir_children name, by simp, by simp, by simp⟩
  · intro c cd hc
    rcases smallTree_cases hc with ⟨rfl, rfl⟩ | ⟨rfl, rfl⟩
    · exact Or.inl ⟨rfl, rfl⟩
    · exact Or.inr ⟨0, smallRoot, [1], rfl, Nat.zero_lt_one, rfl, smallRoot_children, by simp⟩

theorem smallTree_distinctNames (name : QString) : DistinctNames (smallTree name) := by
  intro n nd l hn hl
  rcases smallTree_cases hn with ⟨rfl, rfl⟩ | ⟨rfl, rfl⟩
  · rw [children_unique hl smallRoot_children]
    simp
  · rw [children_unique hl (smallDir_children name)]
    simp

theorem refresh_matches_listing_home :
    ∃ m' new, (smallTree ['h']).slotRemoteDirNodeRetrived 1 1 [smallDir ['a'], smallDir ['a']] =
      some m' ∧ MatchesListing (smallTree ['h']) m' 1 [] new [smallDir ['a'], smallDir ['a']] :=
  (refresh_matches_listing (smallTree ['h']) (smallTree_wellFormed _) (smallTree_distinctNames _) 1
    (smallDir ['h']) [] rfl (smallDir_children _) [smallDir ['a'], smallDir ['a']] (by simp)).mpr
    (by decide)

theorem refresh_wicd_fails :
    WellFormed (smallTree ['.', 'w', 'i', 'c', 'd']) ∧
    DistinctNames (smallTree ['.', 'w', 'i', 'c', 'd']) ∧
    (smallTree ['.', 'w', 'i', 'c', 'd']).nodes 1 = some (smallDir ['.', 'w', 'i', 'c', 'd']) ∧
    (smallDir ['.', 'w', 'i', 'c', 'd']).retrFlag = popUpdating ∧
    ¬ ∃ m' new, (smallTree ['.', 'w', 'i', 'c', 'd']).slotRemoteDirNodeRetrived 1 1 [] = some m' ∧
      MatchesListing (smallTree ['.', 'w', 'i', 'c', 'd']) m' 1 [] new [] := by
  -- The listing of a directory named `.wicd` stops the program.
  refine ⟨smallTree_wellFormed _, smallTree_distinctNames _, rfl, rfl, ?_⟩
  rintro ⟨m', new, hslot, -⟩
  rw [slotRemoteDirNodeRetrived_wicd (smallTree_wellFormed _) rfl rfl] at hslot
  simp at hslot

end NullFxp.RemoteDirModel
