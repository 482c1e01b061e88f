import NullFxp.RemoteDirModel.Requests

/-!
# The paths of the nodes

Every node stores its own path, and commands are built from it. A rename writes the path of the
one node that is renamed, and a listing was read under the path that the directory had then.
-/

open Forest RowMap Runs

namespace NullFxp.RemoteDirModel

/-- The path of a node is the path of the directory above it, a slash and its name. -/
def PathsFollow (m : Model) : Prop :=
  ∀ n nd p pd, m.nodes n = some nd → nd.pNode = some p → m.nodes p = some pd →
    nd.fullPath = childPath pd.fullPath nd.fileName

/-- The tree shows `n` under `path`: the names from the root down, a slash before each. -/
inductive ShownAt (m : Model) : Nat → QString → Prop where
  | root {r : Nat} (h : m.rootNode = some r) : ShownAt m r []
  | child {n p : Nat} {nd : NetDirNode} {path : QString} (hn : m.nodes n = some nd)
    (hp : nd.pNode = some p) (h : ShownAt m p path) : ShownAt m n (childPath path nd.fileName)

/-- A command that is built from the path of a node is about the entry that is shown there. -/
def AddressesShown (m : Model) : Prop :=
  ∀ n nd path, m.nodes n = some nd → ShownAt m n path → nd.fullPath = path

/-- The steps that keep the paths right: a node that gets another name has no children, and a
listing that arrives was read under the path that its directory has now. -/
def PathsKept (s : System) (a : Action) : Prop :=
  (∀ n value nd, a = .rename n value → s.model.nodes n = some nd →
    value = [] ∨ value = nd.fileName ∨ Children nd []) ∧
  (a = .deliver → ∀ p i es events pd, s.events = .retrived p i es :: events →
    s.model.nodes p = some pd → ∀ e ∈ es, e.fullPath = childPath pd.fullPath e.fileName)

def RootPathEmpty (m : Model) : Prop :=
  ∀ r rd, m.rootNode = some r → m.nodes r = some rd → rd.fullPath = []

/-- The root has the empty path, and the entries of a listing stand under one path. -/
structure PathsKnown (s : System) : Prop where
  consistent : Consistent s
  root : RootPathEmpty s.model
  listing : ∀ p i es, Event.retrived p i es ∈ s.events →
    ∃ path, ∀ e ∈ es, e.fullPath = childPath path e.fileName

theorem childPath_left_inj {path path' name : QString} (h : childPath path name = childPath path' name) :
    path = path' :=
  List.append_cancel_right h

theorem childPath_right_inj {path name name' : QString} (h : childPath path name = childPath path name') :
    name = name' :=
  (List.cons.inj (List.append_cancel_left h)).2

theorem PathsFollow.addressesShown {m : Model} (h : PathsFollow m) (hroot : RootPathEmpty m)
    (hm : WellFormed m) : AddressesShown m := by
  intro n nd path hn hshown
  induction hshown generalizing nd with
  | root hr => exact hroot _ nd hr hn
  | child hn' hp hpath ih =>
    rw [hn'] at hn
    obtain rfl := Option.some.inj hn
    rcases hm.parent _ _ hn' with ⟨hnone, -⟩ | ⟨q, qd, l, hq, -, hqd, -⟩
    · simp [hp] at hnone
    · rw [hp] at hq
      obtain rfl := Option.some.inj hq
      rw [h _ _ _ _ hn' hp hqd, ih qd hqd]

/-! ## Steps that touch no path -/

def SamePaths (m m' : Model) : Prop :=
  ∀ x, (m'.nodes x).map (fun nd => (nd.pNode, nd.fullPath, nd.fileName)) =
    (m.nodes x).map fun nd => (nd.pNode, nd.fullPath, nd.fileName)

theorem samePaths_refl (m : Model) : SamePaths m m := fun _ => rfl

theorem SamePaths.trans {m m' m'' : Model} (h : SamePaths m m') (h' : SamePaths m' m'') :
    SamePaths m m'' := fun x => (h' x).trans (h x)

theorem samePaths_queue (m : Model) (q : List QueueElem) :
    SamePaths m { m with commandQueue := q } := fun _ => rfl

theorem samePaths_set {m : Model} {n : Nat} {nd nd' : NetDirNode} (hn : m.nodes n = some nd)
    (h : (nd'.pNode, nd'.fullPath, nd'.fileName) = (nd.pNode, nd.fullPath, nd.fileName)) :
    SamePaths m (m.set n nd') := by
  intro x
  by_cases hx : x = n
  · subst hx
    rw [Model.set_nodes_self, hn, Option.map_some, Option.map_some, h]
  · rw [Model.set_nodes_ne _ _ hx]

theorem samePaths_withRequest {m : Model} {p : Nat} {pd : NetDirNode} (hp : m.nodes p = some pd) :
    SamePaths m (m.withRequest p pd) := by
  have h : SamePaths m (m.set p pd.updating) := samePaths_set hp rfl
  exact h.trans (samePaths_queue _ _)

theorem SamePaths.node {m m' : Model} (h : SamePaths m m') {x : Nat} {xd : NetDirNode}
    (hx : m.nodes x = some xd) : ∃ xd', m'.nodes x = some xd' ∧ xd'.pNode = xd.pNode ∧
      xd'.fullPath = xd.fullPath ∧ xd'.fileName = xd.fileName := by
  have hx' := h x
  rw [hx, Option.map_some, Option.map_eq_some_iff] at hx'
  obtain ⟨xd', hxd', heq⟩ := hx'
  simp only [Prod.mk.injEq] at heq
  exact ⟨xd', hxd', heq⟩

theorem SamePaths.symm {m m' : Model} (h : SamePaths m m') : SamePaths m' m := fun x => (h x).symm

theorem SamePaths.pathsFollow {m m' : Model} (h : SamePaths m m') (hm : PathsFollow m) :
    PathsFollow m' := by
  intro n nd' p pd' hn hp hpd
  obtain ⟨nd, hnd, hpar, hpath, hname⟩ := h.symm.node hn
  obtain ⟨pd, hpd', -, hppath, -⟩ := h.symm.node hpd
  rw [← hpath, ← hname, ← hppath]
  exact hm n nd p pd hnd (hpar.trans hp) hpd'

theorem Moved.samePaths {proto : Protocol} {s s' : System} {a : Action} (h : Moved proto s a s')
    (ha : ∀ n value, a ≠ .rename n value) :
    (SamePaths s.model s'.model ∧
      (a = .deliver → ∀ p i es events, s.events ≠ .retrived p i es :: events)) ∨
    a = .deliver ∧ ∃ p pd l es, s.events = .retrived p p es :: s'.events ∧
      s.model.nodes p = some pd ∧ Children pd l ∧ Refreshed s.model s'.model p pd l es := by
  cases h with
  | idle hne => exact Or.inl ⟨samePaths_refl _, fun he => absurd he hne⟩
  | ask hne hp => exact Or.inl ⟨samePaths_withRequest hp, fun he => absurd he hne⟩
  | exec => exact Or.inl ⟨samePaths_queue _ _, nofun⟩
  | rename => exact absurd rfl (ha _ _)
  | list => exact Or.inl ⟨samePaths_queue _ _, nofun⟩
  | resolve => exact Or.inl ⟨samePaths_queue _ _, nofun⟩
  | change _ hp =>
    exact Or.inl ⟨(samePaths_queue _ _).trans (samePaths_withRequest (by exact hp)), nofun⟩
  | refresh he hp hl hr => exact Or.inr ⟨rfl, _, _, _, _, he, hp, hl, hr⟩
  | done he => exact Or.inl ⟨samePaths_refl _, fun _ => by simp [he]⟩
  | linked he hp => exact Or.inl ⟨samePaths_set hp (by rfl), fun _ => by simp [he]⟩
  | follow he hp =>
    refine Or.inl ⟨SamePaths.trans (samePaths_set hp ?_)
      (samePaths_withRequest (Model.set_nodes_self ..)), fun _ => by simp [he]⟩
    rfl
  | broken he _ hp => exact Or.inl ⟨samePaths_set hp (by rfl), fun _ => by simp [he]⟩

/-! ## A rename -/

theorem setDataString_renames {m m' : Model} (hm : WellFormed m) {n : Nat} {nd : NetDirNode}
    (hn : m.nodes n = some nd) {value : QString}
    (h : m.setDataString (m.persistent n) value = some m') :
    (m' = m ∧ (value = [] ∨ value = nd.fileName)) ∨ (value ≠ [] ∧ value ≠ nd.fileName ∧
      ∃ q qd params, nd.pNode = some q ∧ m.nodes q = some qd ∧
        m' = m.withRename n nd q (childPath qd.fullPath value) value params) := by
  obtain ⟨hidx, -, i, hpar, -⟩ := persistent_spec hm hn
  rw [Model.setDataString] at h
  split at h
  · rename_i hvalid
    simp only [hpar, hidx.2, hn, Option.bind_eq_bind, Option.bind_some, Option.bind_eq_some_iff] at h
    obtain ⟨-, -, h⟩ := h
    split at h
    · rename_i hname
      exact Or.inl ⟨(Option.some.inj h).symm, Or.inr hname.symm⟩
    · rename_i hname
      simp only [Option.bind_eq_some_iff] at h
      obtain ⟨q, hq, qd, hqd, h⟩ := h
      refine Or.inr ⟨hvalid.2, fun he => hname he.symm, q, qd, _, ?_, hqd, (Option.some.inj h).symm⟩
      -- the parent of the index is the parent of the node
      simp only [Model.parent, hvalid.1, if_true, Model.deref, hidx.2, Option.bind_some, hn,
        Option.bind_eq_bind] at hpar
      split at hpar
      · obtain rfl := Option.some.inj hpar
        simp [ModelIndex.invalid] at hq
      · rename_i k hk
        simp only [Option.bind_eq_some_iff] at hpar
        obtain ⟨kd, -, -, -, hpar⟩ := hpar
        obtain rfl := Option.some.inj hpar
        rw [hk]
        exact hq
  · rename_i hvalid
    refine Or.inl ⟨(Option.some.inj h).symm, Or.inl ?_⟩
    by_contra hne
    exact hvalid ⟨hidx.1, hne⟩

section Rename

variable {m : Model} {n q : Nat} {nd qd : NetDirNode} {value params : QString} (hm : WellFormed m)
  (hfollow : PathsFollow m) (hn : m.nodes n = some nd) (hnq : nd.pNode = some q)
  (hq : m.nodes q = some qd)

theorem withRename_nodes_self {path : QString} :
    (m.withRename n nd q path value params).nodes n =
      some { nd with fullPath := path, fileName := value } :=
  Model.set_nodes_self ..

theorem withRename_nodes_ne {path : QString} {x : Nat} (hx : x ≠ n) :
    (m.withRename n nd q path value params).nodes x = m.nodes x :=
  Model.set_nodes_ne _ _ hx

include hm hfollow hn hnq hq

theorem rowless_of_withRename (hvalue : value ≠ nd.fileName)
    (h : PathsFollow (m.withRename n nd q (childPath qd.fullPath value) value params)) :
    Children nd [] := by
  obtain ⟨l, hl, -⟩ := hm.children n nd hn
  cases l with
  | nil => exact hl
  | cons c l =>
    have hc : par m c = some n := (hm.mem_children hn hl c).mp (by simp)
    obtain ⟨cd, hcd, hcp⟩ := par_some hc
    have hne : c ≠ n := by
      have := hm.par_lt c n hc
      omega
    have hold := hfollow c cd n nd hcd hcp hn
    have hnew := h c cd n _ ((withRename_nodes_ne hne).trans hcd) hcp withRename_nodes_self
    have hpath : nd.fullPath = childPath qd.fullPath value := childPath_left_inj (hold.symm.trans hnew)
    rw [hfollow n nd q qd hn hnq hq] at hpath
    exact absurd (childPath_right_inj hpath).symm hvalue

theorem PathsFollow.withRename (hnone : Children nd []) :
    PathsFollow (m.withRename n nd q (childPath qd.fullPath value) value params) := by
  have hlt : q < n := hm.par_lt n q (by rw [par_eq hn, hnq])
  intro x xd p pd hx hxp hp
  by_cases hxn : x = n
  · subst hxn
    rw [withRename_nodes_self] at hx
    obtain rfl := Option.some.inj hx
    obtain rfl : q = p := Option.some.inj (hnq.symm.trans hxp)
    rw [withRename_nodes_ne (by omega), hq] at hp
    obtain rfl := Option.some.inj hp
    rfl
  · rw [withRename_nodes_ne hxn] at hx
    have hpn : p ≠ n := by
      rintro rfl
      have hmem := (hm.mem_children hn hnone x).mpr (by rw [par_eq hx, hxp])
      simp at hmem
    rw [withRename_nodes_ne hpn] at hp
    exact hfollow x xd p pd hx hxp hp

theorem withRename_pathsFollow (hvalue : value ≠ nd.fileName) :
    PathsFollow (m.withRename n nd q (childPath qd.fullPath value) value params) ↔
      Children nd [] :=
  ⟨rowless_of_withRename hm hfollow hn hnq hq hvalue,
    PathsFollow.withRename hm hfollow hn hnq hq⟩

end Rename

/-! ## A listing -/

section Listing

variable {m m' : Model} {p : Nat} {pd : NetDirNode} {l : List Nat} {es : List NetDirNode}
  (hm : WellFormed m) (hp : m.nodes p = some pd) (hl : Children pd l)
  (h : Refreshed m m' p pd l es)

include hm hp hl h

theorem Refreshed.row_path {c : Nat} {cd' : NetDirNode} (hc : par m' c = some p)
    (hcd : m'.nodes c = some cd') :
    ∃ e ∈ es, cd'.fullPath = e.fullPath ∧ cd'.fileName = e.fileName := by
  obtain ⟨cn, hcn, hrows⟩ := h.parent
  have hmem := (h.wellFormed.mem_children hcn hrows c).mpr hc
  rcases List.mem_append.mp hmem with hmem | hmem
  · obtain ⟨hcl, hsome⟩ := List.mem_filter.mp hmem
    obtain ⟨cd, hold⟩ := child_live hm hp hl hcl
    rw [entryOf_eq hold] at hsome
    obtain ⟨e, he⟩ := Option.isSome_iff_exists.mp hsome
    obtain ⟨row, hrow⟩ := h.kept c hcl cd e hold he
    rw [hcd] at hrow
    obtain rfl := Option.some.inj hrow
    exact ⟨e, (entryFor_some he).1, rfl, rfl⟩
  · obtain ⟨k, hk, rfl⟩ := List.mem_range'.mp hmem
    have hat := List.getElem?_eq_getElem hk
    have hnew := h.new k _ hat
    rw [Nat.one_mul] at hcd
    rw [hcd] at hnew
    obtain rfl := Option.some.inj hnew
    exact ⟨_, (newEntries_sub (List.mem_of_getElem? hat)).1, rfl, rfl⟩

theorem Refreshed.row_of_entry {e : NetDirNode} (he : e ∈ es) :
    ∃ c cd', par m' c = some p ∧ m'.nodes c = some cd' ∧ cd'.fileName = e.fileName := by
  obtain ⟨cn, hcn, hrows⟩ := h.parent
  have hrow : ∃ c ∈ keptRows m es l ++ List.range' m.next (addedEntries m es l).length,
      nameOf m' c = e.fileName := by
    obtain ⟨hold, hnew⟩ := h.names hm hp hl
    by_cases hname : e.fileName ∈ l.map (nameOf m)
    · obtain ⟨c, hc, hce⟩ := List.mem_map.mp hname
      have hkept : c ∈ keptRows m es l := by
        refine List.mem_filter.mpr ⟨hc, ?_⟩
        rw [entryOf_isSome_iff hm hp hl es hc, hce, listedNames]
        exact List.mem_map_of_mem he
      refine ⟨c, List.mem_append_left _ hkept, ?_⟩
      rw [List.map_inj_left.mp hold c hkept, hce]
    · have hadded : e.fileName ∈ (addedEntries m es l).map fun e => e.fileName := by
        rw [addedEntries, newEntries_names, List.mem_eraseDups, List.mem_filter]
        exact ⟨List.mem_map_of_mem he, by simpa using hname⟩
      rw [← hnew] at hadded
      obtain ⟨c, hc, hce⟩ := List.mem_map.mp hadded
      exact ⟨c, List.mem_append_right _ hc, hce⟩
  obtain ⟨c, hc, hname⟩ := hrow
  have hpar := (h.wellFormed.mem_children hcn hrows c).mp hc
  obtain ⟨cd', hcd', -⟩ := par_some hpar
  exact ⟨c, cd', hpar, hcd', by rw [← hname, nameOf_eq hcd']⟩

theorem Refreshed.old_path (hfollow : PathsFollow m)
    (hes : ∀ e ∈ es, e.fullPath = childPath pd.fullPath e.fileName) {x : Nat} {xd xd' : NetDirNode}
    (hx : m.nodes x = some xd) (hx' : m'.nodes x = some xd') :
    xd'.pNode = xd.pNode ∧ xd'.fullPath = xd.fullPath ∧ xd'.fileName = xd.fileName := by
  by_cases hxp : x = p
  · subst hxp
    obtain ⟨cn, hcn, -⟩ := h.parent
    rw [hp] at hx
    obtain rfl := Option.some.inj hx
    rw [hx'] at hcn
    obtain rfl := Option.some.inj hcn
    exact ⟨rfl, rfl, rfl⟩
  by_cases hxd : Dropped m es l x
  · simp [h.gone x hxd] at hx'
  by_cases hxl : x ∈ l
  · cases he : Model.entryFor es xd.fileName with
    | none => exact absurd ⟨x, hxl, by rw [entryOf_eq hx, he], below_refl x⟩ hxd
    | some e =>
      obtain ⟨row, hrow⟩ := h.kept x hxl xd e hx he
      rw [hx'] at hrow
      obtain rfl := Option.some.inj hrow
      obtain ⟨hmem, hname⟩ := entryFor_some he
      have hpar : xd.pNode = some p := by rw [← par_eq hx, (hm.mem_children hp hl x).mp hxl]
      refine ⟨rfl, ?_, hname⟩
      rw [hfollow x xd p pd hx hpar hp, ← hname]
      exact hes e hmem
  · rw [h.frame x hxp hxl (hm.fresh x xd hx) hxd, hx] at hx'
    obtain rfl := Option.some.inj hx'
    exact ⟨rfl, rfl, rfl⟩

theorem Refreshed.old_or_row {x : Nat} {xd' : NetDirNode} (hx' : m'.nodes x = some xd') :
    (∃ xd, m.nodes x = some xd) ∨ par m' x = some p := by
  by_cases hlt : x < m.next
  · by_cases hxp : x = p
    · exact Or.inl ⟨pd, hxp ▸ hp⟩
    by_cases hxl : x ∈ l
    · exact Or.inl (child_live hm hp hl hxl)
    by_cases hxd : Dropped m es l x
    · simp [h.gone x hxd] at hx'
    · exact Or.inl ⟨xd', (h.frame x hxp hxl hlt hxd).symm.trans hx'⟩
  · have hfresh := h.wellFormed.fresh x xd' hx'
    rw [h.next] at hfresh
    obtain ⟨cn, hcn, hrows⟩ := h.parent
    refine Or.inr ((h.wellFormed.mem_children hcn hrows x).mp (List.mem_append_right _ ?_))
    exact List.mem_range'_1.mpr ⟨by omega, by omega⟩

theorem Refreshed.pathsFollow_iff (hfollow : PathsFollow m) {path : QString}
    (hpath : ∀ e ∈ es, e.fullPath = childPath path e.fileName) :
    PathsFollow m' ↔ ∀ e ∈ es, e.fullPath = childPath pd.fullPath e.fileName := by
  obtain ⟨cn, hcn, hrows⟩ := h.parent
  constructor
  · intro h' e he
    obtain ⟨c, cd', hc, hcd', hname⟩ := h.row_of_entry hm hp hl he
    obtain ⟨e', he', hfull, hname'⟩ := h.row_path hm hp hl hc hcd'
    have hstep := h' c cd' p _ hcd' (by rw [← par_eq hcd', hc]) hcn
    have hstep : cd'.fullPath = childPath pd.fullPath cd'.fileName := hstep
    rw [hfull, hpath e' he', hname'] at hstep
    rw [hpath e he, childPath_left_inj hstep]
  · intro hes n nd' q qd' hn hnq hq
    rcases h.old_or_row hm hp hl hn with ⟨nd, hold⟩ | hpar
    · obtain ⟨hpn, hfull, hname⟩ := h.old_path hm hp hl hfollow hes hold hn
      -- the parent of an old node is an old node
      rcases hm.parent n nd hold with ⟨hnone, -⟩ | ⟨k, kd, lk, hk, -, hkd, -⟩
      · rw [hpn, hnone] at hnq
        simp at hnq
      · rw [← hpn, hnq] at hk
        obtain rfl := Option.some.inj hk
        obtain ⟨-, hqfull, -⟩ := h.old_path hm hp hl hfollow hes hkd hq
        rw [hfull, hqfull, hname]
        exact hfollow n nd q kd hold (hpn.symm.trans hnq) hkd
    · obtain ⟨e, he, hfull, hname⟩ := h.row_path hm hp hl hpar hn
      rw [par_eq hn, hnq] at hpar
      obtain rfl := Option.some.inj hpar
      rw [hcn] at hq
      obtain rfl := Option.some.inj hq
      rw [hfull, hname]
      exact hes e he

end Listing

/-! ## The initial tree -/

theorem withRow_pathsFollow {m m' : Model} (hm : WellFormed m) (hfollow : PathsFollow m) {p : Nat}
    {pd nd : NetDirNode} (hp : m.nodes p = some pd)
    (hm' : m'.nodes = ((m.withRow p pd 0).set m.next nd).nodes) (hnd : nd.pNode = some p)
    (hpath : nd.fullPath = childPath pd.fullPath nd.fileName) : PathsFollow m' := by
  have hne : p ≠ m.next := fun h => lt_irrefl _ (h ▸ hm.fresh p pd hp)
  have hold : ∀ x xd', x ≠ m.next → m'.nodes x = some xd' → ∃ xd, m.nodes x = some xd ∧
      xd'.pNode = xd.pNode ∧ xd'.fullPath = xd.fullPath ∧ xd'.fileName = xd.fileName := by
    intro x xd' hxn hx
    rw [hm', Model.set_nodes_ne _ _ hxn] at hx
    by_cases hxp : x = p
    · subst hxp
      rw [withRow_nodes_self] at hx
      obtain rfl := Option.some.inj hx
      exact ⟨pd, hp, rfl, rfl, rfl⟩
    · rw [withRow_nodes_ne hxp hxn] at hx
      exact ⟨xd', hx, rfl, rfl, rfl⟩
  intro x xd' q qd' hx hxq hq
  by_cases hxn : x = m.next
  · subst hxn
    rw [hm', Model.set_nodes_self] at hx
    obtain rfl := Option.some.inj hx
    rw [hnd] at hxq
    obtain rfl := Option.some.inj hxq
    obtain ⟨qd, hqd, -, hqpath, -⟩ := hold p qd' hne hq
    rw [hp] at hqd
    obtain rfl := Option.some.inj hqd
    rw [hqpath]
    exact hpath
  · obtain ⟨xd, hxd, hpn, hfull, hname⟩ := hold x xd' hxn hx
    rw [hpn] at hxq
    -- the new node is nobody's parent
    have hqn : q ≠ m.next := by
      rcases hm.parent x xd hxd with ⟨hnone, -⟩ | ⟨k, kd, lk, hk, -, hkd, -⟩
      · simp [hxq] at hnone
      · rw [hxq] at hk
        obtain rfl := Option.some.inj hk
        exact fun h => lt_irrefl _ (h ▸ hm.fresh q kd hkd)
    obtain ⟨qd, hqd, -, hqpath, -⟩ := hold q qd' hqn hq
    rw [hfull, hname, hqpath]
    exact hfollow x xd q qd hxd hxq hqd

theorem homeLoop_paths (home : QString) (count : Nat) (parts : List QString) (i : Nat)
    (hi : i ≠ 0) {m m' : Model} (hm : WellFormed m) {idx : ModelIndex} {p : Nat} {pd : NetDirNode}
    (hidx : PointsTo idx p) (hp : m.nodes p = some pd) (hl : Children pd [])
    (hfollow : PathsFollow m) (hroot : RootPathEmpty m)
    (h : Model.homeLoop home count parts i pd.fullPath idx m = some m') :
    PathsFollow m' ∧ RootPathEmpty m' := by
  induction parts generalizing i m idx p pd with
  | nil =>
    obtain rfl : m = m' := by simpa [Model.homeLoop] using h
    exact ⟨hfollow, hroot⟩
  | cons part parts ih =>
    by_cases hpart : part = []
    · rw [Model.homeLoop, if_pos ⟨hi, hpart⟩] at h
      obtain rfl := Option.some.inj h
      exact ⟨hfollow, hroot⟩
    rw [homeLoop_cons hm hp hl hidx hi hpart] at h
    have hnew : PointsTo ⟨0, 0, some m.next⟩ m.next := ⟨⟨by simp, by simp⟩, rfl⟩
    have hwf := withHome_wellFormed hm hp hl
      (Model.homeNode home count i (childPath pd.fullPath part) part)
    refine ih (i + 1) (by omega) hwf hnew (Model.set_nodes_self ..) holds_empty
      (withRow_pathsFollow hm hfollow hp rfl rfl rfl) ?_ h
    intro r rd hr hrd
    have hr : m.rootNode = some r := hr
    obtain ⟨r', rd', hr', hrd', -⟩ := hm.root
    rw [hr] at hr'
    obtain rfl := Option.some.inj hr'
    have hrn : r ≠ m.next := fun h => lt_irrefl _ (h ▸ hm.fresh r rd' hrd')
    rw [Model.withHome, Model.set_nodes_ne _ _ hrn] at hrd
    by_cases hrp : r = p
    · subst hrp
      rw [withRow_nodes_self] at hrd
      obtain rfl := Option.some.inj hrd
      exact hroot r pd hr hp
    · rw [withRow_nodes_ne hrp hrn] at hrd
      exact hroot r rd hr hrd

theorem setUserHomePath_paths {home : QString} {m : Model}
    (h : Model.empty.setUserHomePath home = some m) : PathsFollow m ∧ RootPathEmpty m := by
  have honly : ∀ n nd, (homeRoot home (home.splitOn '/').length).nodes n = some nd →
      nd.pNode = none ∧ nd.fullPath = [] := by
    intro n nd hn
    by_cases hn0 : n = 0
    · subst hn0
      rw [homeRoot, Model.set_nodes_self] at hn
      obtain rfl := Option.some.inj hn
      exact ⟨rfl, rfl⟩
    · rw [homeRoot, Model.set_nodes_ne _ _ hn0] at hn
      exact absurd (rootOnly_nodes n nd hn).1 hn0
  rw [setUserHomePath_eq, Option.ite_none_right_eq_some] at h
  refine homeLoop_paths home _ _ 1 (by simp) (homeRoot_wellFormed home _) ⟨⟨by simp, by simp⟩, rfl⟩
    (Model.set_nodes_self ..) holds_empty ?_ ?_ h.2
  · intro n nd p pd hn hnp
    simp [(honly n nd hn).1] at hnp
  · intro r rd _ hrd
    exact (honly r rd hrd).2

/-! ## Runs -/

theorem retriveDir_path {proto : Protocol} {pd : NetDirNode} {entries : List (QString × Attrib)}
    {e : NetDirNode} (he : e ∈ retriveDir proto pd entries) :
    e.fullPath = childPath pd.fullPath e.fileName := by
  rw [retriveDir, List.mem_mapIdx] at he
  obtain ⟨i, hi, rfl⟩ := he
  rfl

theorem SamePaths.rootPathEmpty {m m' : Model} (h : SamePaths m m') (hroot : m'.rootNode = m.rootNode)
    (hm : RootPathEmpty m) : RootPathEmpty m' := by
  intro r rd' hr hrd
  obtain ⟨rd, hrd', -, hpath, -⟩ := h.symm.node hrd
  rw [← hpath]
  exact hm r rd (hroot ▸ hr) hrd'

theorem step_rootPathEmpty {proto : Protocol} {s s' : System} {a : Action} (hs : Consistent s)
    (hroot : RootPathEmpty s.model) (h : s.step proto a = some s') : RootPathEmpty s'.model := by
  have hmoved := step_moved hs h
  obtain ⟨r₀, rd₀, hr₀, hrd₀, hnone, -⟩ := hs.wellFormed.root
  by_cases ha : ∀ n value, a ≠ .rename n value
  · rcases hmoved.samePaths ha with ⟨hsame, -⟩ | ⟨-, p, pd, l, es, -, hp, hl, href⟩
    · refine hsame.rootPathEmpty ?_ hroot
      rcases hmoved.dataOnly with hd | ⟨-, p, pd, l, es, -, -, -, hr⟩
      · exact hd.root
      · exact hr.root
    · intro r rd hr hrd
      have hr : s.model.rootNode = some r := href.root ▸ hr
      rw [hr₀] at hr
      obtain rfl := Option.some.inj hr
      have hrl : r₀ ∉ l := by
        rw [hs.wellFormed.mem_children hp hl, par_eq hrd₀, hnone]
        simp
      by_cases hrp : r₀ = p
      · subst hrp
        obtain ⟨cn, hcn, -⟩ := href.parent
        rw [hcn] at hrd
        obtain rfl := Option.some.inj hrd
        exact hroot r₀ pd hr₀ hp
      by_cases hdrop : Dropped s.model es l r₀
      · simp [href.gone r₀ hdrop] at hrd
      · rw [href.frame r₀ hrp hrl (hs.wellFormed.fresh r₀ rd₀ hrd₀) hdrop] at hrd
        exact hroot r₀ rd hr₀ hrd
  · simp only [ne_eq, not_forall, not_not] at ha
    obtain ⟨n, value, rfl⟩ := ha
    simp only [System.step, Option.bind_eq_bind, Option.bind_eq_some_iff] at h
    obtain ⟨nd, hn, _, hpar, m', hm', h⟩ := h
    obtain rfl := Option.some.inj h
    rcases setDataString_renames hs.wellFormed hn hm' with ⟨rfl, -⟩ | ⟨-, -, q, qd, params, hq, -, rfl⟩
    · exact hroot
    · intro r rd hr hrd
      have hr : s.model.rootNode = some r := hr
      have hrd : (s.model.set n _).nodes r = some rd := hrd
      rw [hr₀] at hr
      obtain rfl := Option.some.inj hr
      have hrn : r₀ ≠ n := by
        rintro rfl
        rw [hn] at hrd₀
        obtain rfl := Option.some.inj hrd₀
        simp [hq] at hnone
      rw [Model.set_nodes_ne _ _ hrn] at hrd
      exact hroot r₀ rd hr₀ hrd

theorem step_pathsKnown {proto : Protocol} (s : System) (a : Action) (s' : System)
    (hs : PathsKnown s) (h : s.step proto a = some s') : PathsKnown s' := by
  have hmoved := step_moved hs.consistent h
  refine ⟨hmoved.consistent hs.consistent, step_rootPathEmpty hs.consistent hs.root h, ?_⟩
  intro p i es he
  rcases hmoved.events he with he | ⟨q, qd, -, ⟨entries, params, -, he⟩ | ⟨cmd, status, he⟩⟩
  · exact hs.listing p i es he
  · cases he
    exact ⟨qd.fullPath, fun e he => retriveDir_path he⟩
  · cases he

/-- **What one step does to the paths.** -/
theorem step_pathsFollow {proto : Protocol} (s : System) (a : Action) (s' : System)
    (hs : PathsKnown s) (hfollow : PathsFollow s.model) (h : s.step proto a = some s') :
    PathsFollow s'.model ↔ PathsKept s a := by
  by_cases ha : ∀ n value, a ≠ .rename n value
  · have hmoved := step_moved hs.consistent h
    have hno : (∀ n value nd, a = .rename n value → s.model.nodes n = some nd →
        value = [] ∨ value = nd.fileName ∨ Children nd []) :=
      fun n value _ he => absurd he (ha n value)
    rcases hmoved.samePaths ha with ⟨hsame, hnot⟩ | ⟨rfl, p, pd, l, es, he, hp, hl, href⟩
    · refine iff_of_true (hsame.pathsFollow hfollow) ⟨hno, ?_⟩
      intro hdeliver p i es events _ he
      exact absurd he (hnot hdeliver p i es events)
    · obtain ⟨path, hpath⟩ := hs.listing p p es (by simp [he])
      rw [href.pathsFollow_iff hs.consistent.wellFormed hp hl hfollow hpath]
      constructor
      · intro hes
        refine ⟨hno, ?_⟩
        rintro - q i es' events qd he' hq
        rw [he] at he'
        obtain ⟨⟨rfl, rfl, rfl⟩, -⟩ : (p = q ∧ p = i ∧ es = es') ∧ s'.events = events := by
          simpa using he'
        rw [hp] at hq
        exact Option.some.inj hq ▸ hes
      · intro hkept
        exact hkept.2 rfl p p es _ pd he hp
  · simp only [ne_eq, not_forall, not_not] at ha
    obtain ⟨n, value, rfl⟩ := ha
    simp only [System.step, Option.bind_eq_bind, Option.bind_eq_some_iff] at h
    obtain ⟨nd, hn, _, hpar, m', hm', h⟩ := h
    obtain rfl := Option.some.inj h
    have hkept : PathsKept s (.rename n value) ↔
        value = [] ∨ value = nd.fileName ∨ Children nd [] := by
      constructor
      · intro hk
        exact hk.1 n value nd rfl hn
      · intro hk
        refine ⟨?_, fun hdeliver => absurd hdeliver (by simp)⟩
        rintro _ _ nd' ⟨⟩ hn'
        rw [hn] at hn'
        exact Option.some.inj hn' ▸ hk
    rw [hkept]
    have hwf := hs.consistent.wellFormed
    rcases setDataString_renames hwf hn hm' with
      ⟨rfl, hsame⟩ | ⟨hne, hother, q, qd, params, hnq, hq, rfl⟩
    · exact iff_of_true hfollow (by tauto)
    · rw [withRename_pathsFollow hwf hfollow hn hnq hq hother]
      tauto

/-- **The paths follow the tree in just the runs that keep them**: a node that gets another name
has no children, and no listing arrives that was read under another path of its directory. -/
theorem paths_follow_iff (proto : Protocol) (home : QString) (m₀ : Model)
    (h0 : Model.empty.setUserHomePath home = some m₀) (as : List Action) (s : System)
    (hr : run (System.step proto) ⟨m₀, []⟩ as = some s) :
    (∀ bs t, bs <+: as → run (System.step proto) ⟨m₀, []⟩ bs = some t →
      PathsFollow t.model ∧ AddressesShown t.model) ↔
    Meets (System.step proto) PathsKept ⟨m₀, []⟩ as := by
  obtain ⟨hfollow, hroot⟩ := setUserHomePath_paths h0
  have hstart : PathsKnown ⟨m₀, []⟩ := ⟨consistent_start h0, hroot, by simp⟩
  have hiff : Meets (System.step proto) PathsKept ⟨m₀, []⟩ as ↔ ∀ bs t, bs <+: as →
      run (System.step proto) ⟨m₀, []⟩ bs = some t → PathsFollow t.model :=
    meets_iff step_pathsKnown step_pathsFollow hstart hfollow hr
  rw [hiff]
  constructor
  · intro h bs t hbs ht
    exact (h bs t hbs ht).1
  · intro h bs t hbs ht
    have hknown : PathsKnown t := run_invariant PathsKnown step_pathsKnown hstart ht
    have hgood := h bs t hbs ht
    exact ⟨hgood, hgood.addressesShown hknown.root hknown.consistent.wellFormed⟩

/-- Does the node `n` hang below `p`, with a path that is not what stands above it and its name? -/
def pathStale (m : Model) (p n : Nat) : Bool :=
  match m.nodes p, m.nodes n with
  | some pd, some nd => nd.pNode = some p ∧ nd.fullPath ≠ childPath pd.fullPath nd.fileName
  | _, _ => false

theorem pathStale_spec {m : Model} {p n : Nat} (h : pathStale m p n = true) : ¬ PathsFollow m := by
  intro hfollow
  rw [pathStale] at h
  split at h
  · rename_i pd nd hp hn
    obtain ⟨hpar, hpath⟩ := of_decide_eq_true h
    exact hpath (hfollow n nd p pd hn hpar hp)
  · simp at h

def rowless (m : Model) (n : Nat) : Bool := (m.nodes n).any fun nd => nd.childNodes.entries.isEmpty

theorem rowless_spec {m : Model} {n : Nat} {nd : NetDirNode} (h : rowless m n = true)
    (hn : m.nodes n = some nd) : Children nd [] := by
  rw [rowless, hn, Option.any_some, List.isEmpty_iff] at h
  have hempty : nd.childNodes = ∅ := AList.ext h
  rw [Children, hempty]
  exact holds_empty

theorem paths_follow_home : ∃ m₀ s, Model.empty.setUserHomePath ['/', 'a'] = some m₀ ∧
    run (System.step .sftp) ⟨m₀, []⟩ [.rename 1 ['c']] = some s ∧
    ∀ bs t, bs <+: [.rename 1 ['c']] →
      run (System.step .sftp) ⟨m₀, []⟩ bs = some t → PathsFollow t.model ∧ AddressesShown t.model := by
  obtain ⟨m₀, s, h0, hr, -⟩ := runFrom_any .sftp ['/', 'a'] [.rename 1 ['c']] (fun _ => true)
    (by decide)
  have hrows : rowless m₀ 1 = true := by
    have h : (Model.empty.setUserHomePath ['/', 'a']).all (fun m => rowless m 1) = true := by decide
    simpa [h0] using h
  refine ⟨m₀, s, h0, hr, (paths_follow_iff .sftp _ m₀ h0 _ s hr).mpr ⟨⟨?_, nofun⟩, fun _ _ => trivial⟩⟩
  rintro n value nd ⟨⟩ hn
  exact Or.inr (Or.inr (rowless_spec hrows hn))

theorem renamed_directory_keeps_paths : ∃ m₀ s,
    Model.empty.setUserHomePath ['/', 'a', '/', 'b'] = some m₀ ∧
    run (System.step .sftp) ⟨m₀, []⟩ [.rename 1 ['c']] = some s ∧ ¬ PathsFollow s.model := by
  -- The directory `/a` is renamed to `/c` while the tree shows `b` in it: the node `b` keeps the
  -- path `/a/b`.
  obtain ⟨m₀, s, h0, hr, hstale⟩ := runFrom_any .sftp ['/', 'a', '/', 'b'] [.rename 1 ['c']]
    (fun s => pathStale s.model 1 2) (by decide)
  exact ⟨m₀, s, h0, hr, pathStale_spec hstale⟩

end NullFxp.RemoteDirModel
