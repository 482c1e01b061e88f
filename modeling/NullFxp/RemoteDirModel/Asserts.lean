import NullFxp.RemoteDirModel.Lookup

/-!
# The assertions of the query functions

The views call these functions in any order, on any index that they hold. Of all the assertions in
them one depends on what the server sends: `rowCount` stops the program at the name ".wicd".
-/

open Runs

namespace NullFxp.RemoteDirModel

/-- `Qt::DecorationRole`, `Qt::DisplayRole` and all the others. -/
inductive ItemRole where
  | decoration
  | display
  | other
  deriving DecidableEq

/-- What `data` reads from the node, before it is made an icon or a text. -/
inductive ItemData where
  | dirIcon
  | linkIcon
  | fileIcon (fullPath : QString)
  | name (fileName : QString)
  | size (filesize : Nat)
  | mode (permissions : Nat)
  | date (mtime : Nat)
  | nothing
  deriving DecidableEq

namespace Model

/-- `none` is `assert(0)`, or a deleted node. -/
def hasChildren (m : Model) (parent : ModelIndex) : Option Bool :=
  if parent.IsValid then do
    let currItem ← m.deref parent.internalPointer
    some (currItem.isDir || currItem.linkToDir)
  else
    some true

def isDir (m : Model) (index : ModelIndex) : Option Bool :=
  match index.internalPointer with
  | none => some true
  | some n => (m.nodes n).map NetDirNode.isDir

def isSymLink (m : Model) (index : ModelIndex) : Option Bool :=
  match index.internalPointer with
  | none => some true
  | some n => (m.nodes n).map NetDirNode.isSymLink

def displayData (item : NetDirNode) (column : Int) : ItemData :=
  if column = 0 then .name item.fileName
  else if column = 2 then .mode item.attrib.permissions
  else if column = 1 then .size item.attrib.filesize
  else if column = 3 then .date item.attrib.mtime
  else .nothing

def data (m : Model) (index : ModelIndex) (role : ItemRole) : Option ItemData := do
  guard index.IsValid
  let item ← m.deref index.internalPointer
  if role = .decoration ∧ index.column = 0 then
    if ← m.isDir index then some .dirIcon
    else if ← m.isSymLink index then some .linkIcon
    else some (.fileIcon item.fullPath)
  else if role ≠ .display then some .nothing
  else some (displayData item index.column)

end Model

/-! ## Which calls fail -/

/-- The queries on the index of a node, with the rows that it has and the four columns. -/
structure Answers (m : Model) (idx : ModelIndex) (nd : NetDirNode) : Prop where
  rowCount : (m.rowCount idx).isSome
  hasChildren : (m.hasChildren idx).isSome
  parent : (m.parent idx).isSome
  isDir : (m.isDir idx).isSome
  data : ∀ role, (m.data idx role).isSome
  index : ∀ row column : Int, 0 ≤ row → row < nd.childNodes.count → column < 4 →
    (m.index row column idx).isSome

/-- No query fails: on the index of any node, in any column, and on the invalid index, which
stands above the root. -/
structure NoAbort (m : Model) : Prop where
  node : ∀ idx n nd, PointsTo idx n → m.nodes n = some nd → Answers m idx nd
  top : (m.rowCount .invalid).isSome ∧ (m.hasChildren .invalid).isSome ∧
    (m.parent .invalid).isSome ∧ ∀ column : Int, column < 4 → (m.index 0 column .invalid).isSome

/-- The name that `rowCount` asserts against. -/
def wicd : QString := ['.', 'w', 'i', 'c', 'd']

def NoWicd (m : Model) : Prop := ∀ n nd, m.nodes n = some nd → nd.fileName ≠ wicd

section

variable {m : Model} {idx : ModelIndex} {n : Nat} {nd : NetDirNode} (hidx : PointsTo idx n)
  (hn : m.nodes n = some nd)

include hidx hn

theorem isDir_eq : m.isDir idx = some nd.isDir := by
  simp [Model.isDir, hidx.2, hn]

theorem isSymLink_eq : m.isSymLink idx = some nd.isSymLink := by
  simp [Model.isSymLink, hidx.2, hn]

theorem hasChildren_isSome : (m.hasChildren idx).isSome := by
  simp [Model.hasChildren, hidx.1, hidx.2, Model.deref, hn]

theorem data_isSome (role : ItemRole) : (m.data idx role).isSome := by
  simp only [Model.data, hidx.1, guard_true, Model.deref, hidx.2, Option.bind_some, hn,
    isDir_eq hidx hn, isSymLink_eq hidx hn, Option.bind_eq_bind, Option.pure_def]
  split
  · split
    · rfl
    · split <;> rfl
  · split <;> rfl

theorem index_isSome {row column : Int} (hpos : 0 ≤ row) (hlt : row < nd.childNodes.count)
    (hcol : column < 4) : (m.index row column idx).isSome := by
  have hrow : ¬(row = -1 ∧ column = 0) := by omega
  simp [Model.index, hcol, hidx.1, Model.deref, hidx.2, hn, hlt, hrow]

theorem rowCount_isSome_iff : (m.rowCount idx).isSome ↔ nd.fileName ≠ wicd := by
  constructor
  · intro h hname
    simp [rowCount_wicd hidx hn hname] at h
  · intro hname
    rw [rowCount_eq hidx hn hname, requestListing_eq hn]
    rfl

theorem parent_isSome (hm : WellFormed m) : (m.parent idx).isSome := by
  simp only [Model.parent, hidx.1, if_true, Model.deref, hidx.2, Option.bind_some, hn,
    Option.bind_eq_bind]
  rcases hm.parent n nd hn with ⟨hnone, -⟩ | ⟨p, pd, -, hp, -, hpd, -⟩
  · simp [hnone]
  · -- a node that has children is in a row of its own parent, or it is the root
    have hrow : pd.onRow ≠ -1 := by
      have hof := (indexOf_onRow hm hpd).1.1.1
      simp only at hof
      omega
    simp [hp, hpd, hrow]

end

theorem noAbort_iff {m : Model} (hm : WellFormed m) : NoAbort m ↔ NoWicd m := by
  constructor
  · intro h n nd hn
    have hidx : PointsTo ⟨0, 0, some n⟩ n := ⟨⟨by simp, by simp⟩, rfl⟩
    exact (rowCount_isSome_iff hidx hn).mp (h.node _ n nd hidx hn).rowCount
  · intro h
    refine ⟨?_, rfl, rfl, rfl, ?_⟩
    · intro idx n nd hidx hn
      exact {
        rowCount := (rowCount_isSome_iff hidx hn).mpr (h n nd hn)
        hasChildren := hasChildren_isSome hidx hn
        parent := parent_isSome hidx hn hm
        isDir := by simp [isDir_eq hidx hn]
        data := data_isSome hidx hn
        index := fun row column => index_isSome hidx hn }
    · intro column hcol
      simp [Model.index, hcol, ModelIndex.invalid, ModelIndex.IsValid]

/-! ## Which steps bring the name -/

/-- The steps that give the name to no node: it is no new name, and not in a listing that
arrives. -/
def NameKept (s : System) (a : Action) : Prop :=
  (∀ n value, a = .rename n value → value ≠ wicd) ∧
  (a = .deliver → ∀ p i es events, s.events = .retrived p i es :: events →
    ∀ e ∈ es, e.fileName ≠ wicd)

theorem SamePaths.noWicd {m m' : Model} (h : SamePaths m m') (hm : NoWicd m) : NoWicd m' := by
  intro n nd' hn
  obtain ⟨nd, hnd, -, -, hname⟩ := h.symm.node hn
  rw [← hname]
  exact hm n nd hnd

section

variable {m m' : Model} {p : Nat} {pd : NetDirNode} {l : List Nat} {es : List NetDirNode}
  (hm : WellFormed m) (hp : m.nodes p = some pd) (hl : Children pd l)
  (h : Refreshed m m' p pd l es)

include hm hp hl h

theorem Refreshed.other_name {x : Nat} {xd' : NetDirNode} (hx : m'.nodes x = some xd')
    (hpar : par m' x ≠ some p) : ∃ xd, m.nodes x = some xd ∧ xd.fileName = xd'.fileName := by
  rcases h.old_or_row hm hp hl hx with ⟨xd, hold⟩ | hrow
  · refine ⟨xd, hold, ?_⟩
    by_cases hxp : x = p
    · subst hxp
      obtain ⟨cn, hcn, -⟩ := h.parent
      obtain rfl := Option.some.inj (hp.symm.trans hold)
      obtain rfl := Option.some.inj (hcn.symm.trans hx)
      rfl
    · have hdrop : ¬ Dropped m es l x := by
        intro hdrop
        rw [h.gone x hdrop] at hx
        cases hx
      have hxl : x ∉ l := by
        intro hxl
        cases he : Model.entryFor es xd.fileName with
        | none => exact hdrop ⟨x, hxl, by rw [entryOf_eq hold, he], Forest.below_refl x⟩
        | some e =>
          obtain ⟨row, hrow⟩ := h.kept x hxl xd e hold he
          have hpar' : xd.pNode = some p := by
            rw [← par_eq hold, (hm.mem_children hp hl x).mp hxl]
          exact hpar ((par_eq hrow).trans hpar')
      rw [h.frame x hxp hxl (hm.fresh x xd hold) hdrop] at hx
      rw [Option.some.inj (hold.symm.trans hx)]
  · exact absurd hrow hpar

theorem Refreshed.noWicd_iff (hplain : NoWicd m) :
    NoWicd m' ↔ ∀ e ∈ es, e.fileName ≠ wicd := by
  constructor
  · intro h' e he
    obtain ⟨c, cd', -, hcd', hname⟩ := h.row_of_entry hm hp hl he
    rw [← hname]
    exact h' c cd' hcd'
  · intro hes x xd' hx
    by_cases hpar : par m' x = some p
    · obtain ⟨e, he, -, hname⟩ := h.row_path hm hp hl hpar hx
      rw [hname]
      exact hes e he
    · obtain ⟨xd, hold, hname⟩ := h.other_name hm hp hl hx hpar
      rw [← hname]
      exact hplain x xd hold

end

theorem withRename_noWicd {m : Model} {n q : Nat} {nd : NetDirNode} {path value params : QString}
    (hplain : NoWicd m) : NoWicd (m.withRename n nd q path value params) ↔ value ≠ wicd := by
  constructor
  · intro h
    exact h n _ withRename_nodes_self
  · intro hvalue x xd hx
    by_cases hxn : x = n
    · subst hxn
      rw [withRename_nodes_self] at hx
      obtain rfl := Option.some.inj hx
      exact hvalue
    · rw [withRename_nodes_ne hxn] at hx
      exact hplain x xd hx

/-- **What one step does to the names.** -/
theorem step_noWicd {proto : Protocol} (s : System) (a : Action) (s' : System)
    (hs : Consistent s) (hplain : NoWicd s.model) (h : s.step proto a = some s') :
    NoWicd s'.model ↔ NameKept s a := by
  by_cases ha : ∀ n value, a ≠ .rename n value
  · have hno : ∀ n value, a = .rename n value → value ≠ wicd := fun n value he => absurd he (ha n value)
    rcases (step_moved hs h).samePaths ha with ⟨hsame, hnot⟩ | ⟨rfl, p, pd, l, es, he, hp, hl, href⟩
    · refine iff_of_true (hsame.noWicd hplain) ⟨hno, ?_⟩
      intro hdeliver p i es events he
      exact absurd he (hnot hdeliver p i es events)
    · rw [href.noWicd_iff hs.wellFormed hp hl hplain]
      constructor
      · intro hes
        refine ⟨hno, ?_⟩
        intro _ q i es' events he'
        obtain ⟨⟨-, -, rfl⟩, -⟩ : (p = q ∧ p = i ∧ es = es') ∧ s'.events = events := by
          simpa using he.symm.trans he'
        exact hes
      · intro hkept
        exact hkept.2 rfl p p es _ he
  · simp only [ne_eq, not_forall, not_not] at ha
    obtain ⟨n, value, rfl⟩ := ha
    simp only [System.step, Option.bind_eq_bind, Option.bind_eq_some_iff] at h
    obtain ⟨nd, hn, _, hpar, m', hm', h⟩ := h
    obtain rfl := Option.some.inj h
    have hkept : NameKept s (.rename n value) ↔ value ≠ wicd := by
      constructor
      · intro hk
        exact hk.1 n value rfl
      · intro hk
        refine ⟨?_, ?_⟩
        · rintro _ _ ⟨⟩
          exact hk
        · intro hdeliver
          cases hdeliver
    rw [hkept]
    rcases setDataString_renames hs.wellFormed hn hm' with
      ⟨rfl, hsame⟩ | ⟨-, -, q, qd, params, -, -, rfl⟩
    · refine iff_of_true hplain ?_
      rcases hsame with rfl | rfl
      · decide
      · exact hplain n nd hn
    · exact withRename_noWicd hplain

theorem IsChain.noWicd_iff {m : Model} {names : List QString} {flag : Nat → UInt8}
    (h : IsChain m names flag) : NoWicd m ↔ wicd ∉ names := by
  constructor
  · intro hplain hmem
    obtain ⟨k, hk⟩ := List.getElem?_of_mem hmem
    have hlt := (List.getElem?_eq_some_iff.mp hk).1
    obtain ⟨nd, hnd, hname, -⟩ := h.node (k + 1) (by omega)
    rw [List.getElem?_cons_succ, hk] at hname
    exact hplain _ nd hnd (Option.some.inj hname).symm
  · intro hnot n nd hn hname
    obtain ⟨nd', hn', hname', -⟩ := h.node n (h.le hn)
    obtain rfl := Option.some.inj (hn.symm.trans hn')
    rw [hname] at hname'
    rcases List.mem_cons.mp (List.mem_of_getElem? hname') with hslash | hmem
    · exact absurd hslash (by decide)
    · exact hnot hmem

theorem step_consistent {proto : Protocol} (s : System) (a : Action) (s' : System)
    (hs : Consistent s) (h : s.step proto a = some s') : Consistent s' :=
  (step_moved hs h).consistent hs

/-- **No query fails in just the runs that never meet the name**: the home path does not have it,
no listing that arrives has it, and nothing is renamed to it. -/
theorem no_abort_iff (proto : Protocol) (home : QString) (m₀ : Model)
    (h0 : Model.empty.setUserHomePath home = some m₀) (as : List Action) (s : System)
    (hr : run (System.step proto) ⟨m₀, []⟩ as = some s) :
    (∀ bs t, bs <+: as → run (System.step proto) ⟨m₀, []⟩ bs = some t → NoAbort t.model) ↔
    wicd ∉ homeNames home ∧ Meets (System.step proto) NameKept ⟨m₀, []⟩ as := by
  have hslash : home.head? = some '/' := by
    rw [setUserHomePath_eq, Option.ite_none_right_eq_some] at h0
    have hhead := congrArg List.head? h0.1
    simpa [List.head?_take] using hhead
  obtain ⟨m, hm, -, hchain⟩ := setUserHomePath_chain hslash
  obtain rfl := Option.some.inj (hm.symm.trans h0)
  have hstart := consistent_start h0
  have hgood : ∀ t, Reaches (System.step proto) ⟨m, []⟩ t → (NoAbort t.model ↔ NoWicd t.model) := by
    rintro t ⟨bs, hbs⟩
    exact noAbort_iff (run_invariant Consistent step_consistent hstart hbs).wellFormed
  rw [← hchain.noWicd_iff]
  constructor
  · intro h
    have hfirst : NoWicd m := (hgood _ ⟨[], rfl⟩).mp (h [] _ (List.nil_prefix) rfl)
    refine ⟨hfirst, (meets_iff step_consistent step_noWicd hstart hfirst hr).mpr ?_⟩
    intro bs t hbs ht
    exact (hgood t ⟨bs, ht⟩).mp (h bs t hbs ht)
  · rintro ⟨hfirst, hmeets⟩ bs t hbs ht
    have hplain := (meets_iff step_consistent step_noWicd hstart hfirst hr).mp hmeets bs t hbs ht
    exact (hgood t ⟨bs, ht⟩).mpr hplain

theorem no_abort_renamed : ∃ m₀ s, Model.empty.setUserHomePath ['/', 'a'] = some m₀ ∧
    run (System.step .sftp) ⟨m₀, []⟩ [.query 1, .rename 1 ['c']] = some s ∧ NoAbort s.model := by
  obtain ⟨m₀, s, h0, hr, -⟩ := runFrom_any .sftp ['/', 'a'] [.query 1, .rename 1 ['c']]
    (fun _ => true) (by decide)
  refine ⟨m₀, s, h0, hr, (no_abort_iff .sftp _ m₀ h0 _ s hr).mpr ⟨by decide, ?_⟩ _ s List.prefix_rfl hr⟩
  refine ⟨⟨nofun, nofun⟩, fun t _ => ⟨⟨?_, nofun⟩, fun _ _ => trivial⟩⟩
  rintro n value ⟨⟩
  decide

theorem wicd_listing_aborts : ∃ m₀ s, Model.empty.setUserHomePath ['/', 'a'] = some m₀ ∧
    run (System.step .sftp) ⟨m₀, []⟩ [.query 1, .work [(wicd, { Attrib.zero with
      permissions := 0o040755 })] 0, .deliver] = some s ∧
    s.model.rowCount ⟨0, 0, some 2⟩ = none ∧ ¬ NoAbort s.model := by
  -- The server lists a directory ".wicd" in the home directory.
  obtain ⟨m₀, s, h0, hr, htest⟩ := runFrom_any .sftp ['/', 'a'] [.query 1, .work [(wicd,
    { Attrib.zero with permissions := 0o040755 })] 0, .deliver]
    (fun s => (s.model.nodes 2).isSome && (s.model.rowCount ⟨0, 0, some 2⟩).isNone) (by decide)
  obtain ⟨hlive, hnone⟩ := Bool.and_eq_true_iff.mp htest
  refine ⟨m₀, s, h0, hr, Option.isNone_iff_eq_none.mp hnone, ?_⟩
  intro h
  obtain ⟨nd, hnd⟩ := Option.isSome_iff_exists.mp hlive
  have hrow := (h.node ⟨0, 0, some 2⟩ 2 nd ⟨⟨by simp, by simp⟩, rfl⟩ hnd).rowCount
  simp [Option.isNone_iff_eq_none.mp hnone] at hrow

end NullFxp.RemoteDirModel
