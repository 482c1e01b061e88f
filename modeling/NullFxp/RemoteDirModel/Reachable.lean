import NullFxp.Lib.Runs
import NullFxp.RemoteDirModel.Retrived
import NullFxp.RemoteDirModel.Slice

/-!
# The trees that the program can build

`set_user_home_path` makes a well formed tree, and refreshes, removals and renames keep it
well formed.
-/

open Forest RowMap Runs

namespace NullFxp.RemoteDirModel

/-! ## Removing rows -/

section Remove

variable {m : Model} (hm : WellFormed m) {p : Nat} {pd : NetDirNode} {l : List Nat}
  (hp : m.nodes p = some pd) (hl : Children pd l)

include hm hp hl

theorem removeRows_spec {idx : ModelIndex} (hidx : PointsTo idx p) (row count : Nat)
    (h : row + count ≤ l.length) :
    ∃ m', m.removeRows row count idx = some m' ∧ WellFormed m' ∧ SameRest m m' := by
  obtain ⟨m', hm', hwf, hs⟩ := removeRow_loop_slice hm hp hl row count h
  refine ⟨m', ?_, hwf, hs.rest⟩
  rw [Model.removeRows, hidx.2]
  simp only [Option.bind_eq_bind, Option.bind_some, hp, hm']

end Remove

/-! ## Renaming -/

theorem setDataString_dataOnly {m m' : Model} {idx : ModelIndex} {value : QString}
    (h : m.setDataString idx value = some m') : DataOnly m m' := by
  rw [Model.setDataString] at h
  split at h
  · simp only [Option.bind_eq_bind, Option.bind_eq_some_iff] at h
    obtain ⟨-, -, i, -, n, -, nd, hn, h⟩ := h
    split at h
    · obtain rfl := Option.some.inj h
      exact dataOnly_refl m
    · simp only [Option.bind_eq_some_iff] at h
      obtain ⟨q, -, qd, -, h⟩ := h
      obtain rfl := Option.some.inj h
      have hdata : DataOnly m (m.set n
          { nd with fullPath := childPath qd.fullPath value, fileName := value }) :=
        dataOnly_set hn ⟨rfl, rfl, rfl⟩
      exact hdata.trans (dataOnly_queue _ _)
  · obtain rfl := Option.some.inj h
    exact dataOnly_refl m

/-! ## The initial tree -/

/-- The row that `set_user_home_path` adds below `p`, once it has the data of `tempNode`. -/
def Model.withHome (m : Model) (p : Nat) (pd tempNode : NetDirNode) : Model :=
  (m.withRow p pd 0).set m.next
    { ({ NetDirNode.new with pNode := some p, onRow := short (0 : Nat) } : NetDirNode).copyFrom
      tempNode with onRow := short (0 : Nat) }

section Home

variable {home : QString} {count i : Nat} {last part : QString} {parts : List QString} {m : Model}
  {idx : ModelIndex} {p : Nat} {pd : NetDirNode} (hm : WellFormed m) (hp : m.nodes p = some pd)
  (hl : Children pd [])

include hm hp hl

theorem withHome_wellFormed (tempNode : NetDirNode) : WellFormed (m.withHome p pd tempNode) := by
  have hne : p ≠ m.next := fun h => lt_irrefl _ (h ▸ hm.fresh p pd hp)
  have hdata : DataOnly (m.withRow p pd 0) (m.withHome p pd tempNode) :=
    dataOnly_set (withRow_nodes_new hne 0) ⟨rfl, rfl, rfl⟩
  have hwf := withRow_wellFormed hm hp hl (by simp)
  rw [List.length_nil] at hwf
  exact hdata.wellFormed hwf

theorem homeLoop_cons (hidx : PointsTo idx p) (hi : i ≠ 0) (hpart : part ≠ []) :
    Model.homeLoop home count (part :: parts) i last idx m =
      Model.homeLoop home count parts (i + 1) (childPath last part) ⟨0, 0, some m.next⟩
        (m.withHome p pd (Model.homeNode home count i (childPath last part) part)) := by
  have hne : p ≠ m.next := fun h => lt_irrefl _ (h ▸ hm.fresh p pd hp)
  have hins : m.insertRows 0 1 idx = some (m.withRow p pd 0) := by
    have := insertRows_end hm hp hl hidx
    rwa [List.length_nil, if_pos (by decide)] at this
  have hindex : (m.withRow p pd 0).index 0 0 idx = some ⟨0, 0, some m.next⟩ :=
    index_eq hidx (withRow_nodes_self _) (children_append hl m) (by simp)
  have hvalid : ModelIndex.IsValid ⟨0, 0, some m.next⟩ := ⟨by simp, by simp⟩
  rw [Model.homeLoop, if_neg (by simp [hpart]), if_neg hi, if_neg hi]
  simp only [hins, hindex, Option.bind_eq_bind, Option.bind_some, Model.setDataNode, hvalid, if_true,
    withRow_nodes_new hne 0]
  rfl

end Home

theorem homeLoop_spec (home : QString) (count : Nat) (parts : List QString) (i : Nat)
    (hi : i ≠ 0) (last : QString) {m m' : Model} (hm : WellFormed m) {idx : ModelIndex} {p : Nat}
    {pd : NetDirNode} (hidx : PointsTo idx p) (hp : m.nodes p = some pd) (hl : Children pd [])
    (h : Model.homeLoop home count parts i last idx m = some m') :
    WellFormed m' ∧ m'.commandQueue = m.commandQueue := by
  induction parts generalizing i last m idx p pd with
  | nil =>
    obtain rfl : m = m' := by simpa [Model.homeLoop] using h
    exact ⟨hm, rfl⟩
  | cons part parts ih =>
    by_cases hpart : part = []
    · rw [Model.homeLoop, if_pos ⟨hi, hpart⟩] at h
      obtain rfl := Option.some.inj h
      exact ⟨hm, rfl⟩
    · rw [homeLoop_cons hm hp hl hidx hi hpart] at h
      obtain ⟨hwf, hqueue⟩ := ih (i + 1) (by omega) _ (withHome_wellFormed hm hp hl _)
        ⟨⟨by simp, by simp⟩, rfl⟩ (Model.set_nodes_self ..) holds_empty h
      exact ⟨hwf, hqueue⟩

def rootOnly : Model :=
  { Model.empty.alloc { NetDirNode.new with onRow := 0 } with rootNode := some 0 }

theorem insertRows_root : Model.empty.insertRows 0 1 .invalid = some rootOnly := rfl

theorem rootOnly_nodes (n : Nat) (nd : NetDirNode) (h : rootOnly.nodes n = some nd) :
    n = 0 ∧ nd = { NetDirNode.new with onRow := 0 } := by
  have h : Function.update (fun _ => none) 0 (some { NetDirNode.new with onRow := 0 }) n = some nd := h
  by_cases hn : n = 0
  · subst hn
    rw [Function.update_self] at h
    exact ⟨rfl, (Option.some.inj h).symm⟩
  · rw [Function.update_of_ne hn] at h
    simp at h

theorem rootOnly_wellFormed : WellFormed rootOnly := by
  refine ⟨⟨0, { NetDirNode.new with onRow := 0 }, rfl, rfl, rfl, rfl⟩, ?_, ?_, ?_⟩
  · intro n nd h
    rw [(rootOnly_nodes n nd h).1]
    exact Nat.zero_lt_one
  · intro n nd h
    rw [(rootOnly_nodes n nd h).2]
    exact ⟨[], holds_empty, by simp, by simp, by simp⟩
  · intro n nd h
    obtain ⟨rfl, rfl⟩ := rootOnly_nodes n nd h
    exact Or.inl ⟨rfl, rfl⟩

/-- The root, once it has the data of `tempNode`. -/
def homeRoot (home : QString) (count : Nat) : Model :=
  rootOnly.set 0 { ({ NetDirNode.new with onRow := 0 } : NetDirNode).copyFrom
    (Model.homeNode home count 0 [] ['/']) with onRow := 0 }

theorem homeRoot_wellFormed (home : QString) (count : Nat) : WellFormed (homeRoot home count) := by
  have hdata : DataOnly rootOnly (homeRoot home count) := dataOnly_set rfl ⟨rfl, rfl, rfl⟩
  exact hdata.wellFormed rootOnly_wellFormed

theorem setUserHomePath_eq (home : QString) : Model.empty.setUserHomePath home =
    if home.take 1 = ['/'] then
      Model.homeLoop home (home.splitOn '/').length (home.splitOn '/').tail 1 []
        ⟨0, 0, some 0⟩ (homeRoot home (home.splitOn '/').length)
    else none := by
  rw [Model.setUserHomePath]
  split
  · next hslash =>
    rw [hslash]
    obtain ⟨part, parts, hparts⟩ := List.exists_cons_of_ne_nil (List.splitOn_ne_nil '/' home)
    rw [hparts, Model.homeLoop, if_neg (by simp), insertRows_root]
    rfl
  · next hslash => simp [hslash]

theorem setUserHomePath_spec {home : QString} {m : Model}
    (h : Model.empty.setUserHomePath home = some m) : WellFormed m ∧ m.commandQueue = [] := by
  rw [setUserHomePath_eq, Option.ite_none_right_eq_some] at h
  obtain ⟨hwf, hqueue⟩ := homeLoop_spec home _ _ 1 (by simp) _ (homeRoot_wellFormed home _)
    ⟨⟨by simp, by simp⟩, rfl⟩ (Model.set_nodes_self ..) holds_empty h.2
  exact ⟨hwf, hqueue⟩

/-! ## Runs -/

/-- What the program does to the tree once it is there. -/
inductive Op where
  | retrived (p : Nat) (newNodes : List NetDirNode)
  | removeRows (p row count : Nat)
  | rename (n : Nat) (value : QString)

/-- An operation on nodes of the tree: a listing for one of them, rows that one of them has,
a new name for one that is not the root. -/
def opStep (m : Model) : Op → Option Model
  | .retrived p newNodes => do
    let _ ← m.nodes p
    m.slotRemoteDirNodeRetrived p p newNodes
  | .removeRows p row count => do
    let pd ← m.nodes p
    guard (row + count ≤ pd.childNodes.count)
    m.removeRows row count (m.persistent p)
  | .rename n value => do
    let nd ← m.nodes n
    guard (nd.pNode ≠ none)
    m.setDataString (m.persistent n) value

theorem opStep_wellFormed (m : Model) (op : Op) (m' : Model) (hm : WellFormed m)
    (h : opStep m op = some m') : WellFormed m' := by
  cases op with
  | retrived p es =>
    simp only [opStep, Option.bind_eq_bind, Option.bind_eq_some_iff] at h
    obtain ⟨pd, hp, h⟩ := h
    obtain ⟨l, hl, -⟩ := hm.children p pd hp
    exact (slot_refreshed hm hp hl h).wellFormed
  | removeRows p row count =>
    simp only [opStep, Option.bind_eq_bind, Option.bind_eq_some_iff] at h
    obtain ⟨pd, hp, _, hrange, h⟩ := h
    obtain ⟨l, hl, -⟩ := hm.children p pd hp
    have hle : row + count ≤ l.length := by
      rw [← children_count hl]
      by_contra hgt
      simp [hgt] at hrange
    obtain ⟨m'', h', hwf, -⟩ := removeRows_spec hm hp hl (persistent_spec hm hp).1 row count hle
    rw [h] at h'
    exact Option.some.inj h' ▸ hwf
  | rename n value =>
    simp only [opStep, Option.bind_eq_bind, Option.bind_eq_some_iff] at h
    obtain ⟨-, -, -, -, h⟩ := h
    exact (setDataString_dataOnly h).wellFormed hm

theorem run_wellFormed {home : QString} {m₀ m : Model} {ops : List Op}
    (h0 : Model.empty.setUserHomePath home = some m₀) (hr : run opStep m₀ ops = some m) :
    WellFormed m :=
  run_invariant WellFormed opStep_wellFormed (setUserHomePath_spec h0).1 hr

/-! ## The invariant as the views need it -/

/-- The index `i` stands for the node `p`: it has `p`'s row in the parent, or row 0 for the root. -/
def IndexOf (m : Model) (i : ModelIndex) (p : Nat) : Prop :=
  PointsTo i p ∧
    ((m.rootNode = some p ∧ i.row = 0) ∨
      ∃ q qd, m.nodes q = some qd ∧ qd.childAt i.row.toNat = some p)

structure TreeInvariant (m : Model) : Prop where
  /-- Each hash has the keys `0` to `n - 1`, no null pointer and no node twice, and each child
  knows its parent and its row. -/
  rows : ∀ n nd, m.nodes n = some nd → ∃ l : List Nat,
    (∀ k, nd.childNodes.lookup k = l[k]?.map some) ∧ l.Nodup ∧
    ∀ (k c : Nat), l[k]? = some c → ∃ cd, m.nodes c = some cd ∧ cd.pNode = some n ∧ cd.onRow = k
  /-- From the index of a node to a child and back. -/
  parent : ∀ i p pd, IndexOf m i p → m.nodes p = some pd →
    ∀ r < pd.childNodes.count, ∃ child up, m.index r 0 i = some child ∧ m.parent child = some up ∧
      up.row = i.row ∧ up.internalPointer = some p

theorem indexOf_row {m : Model} (hm : WellFormed m) {i : ModelIndex} {p : Nat} {pd : NetDirNode}
    (hi : IndexOf m i p) (hp : m.nodes p = some pd) : pd.onRow = i.row := by
  have hpos := hi.1.1.1
  rcases hi.2 with ⟨hroot, hrow⟩ | ⟨q, qd, hq, hat⟩
  · obtain ⟨r, rd, hr, hrd, -, hrow0⟩ := hm.root
    rw [hroot] at hr
    obtain rfl := Option.some.inj hr
    rw [hp] at hrd
    obtain rfl := Option.some.inj hrd
    rw [hrow0, hrow]
  · obtain ⟨l, hl, -⟩ := hm.children q qd hq
    rw [children_childAt hl] at hat
    obtain ⟨pd', hpd', -, hrow⟩ := hm.children_onRow hq hl _ p hat
    rw [hp] at hpd'
    obtain rfl := Option.some.inj hpd'
    omega

theorem WellFormed.treeInvariant {m : Model} (hm : WellFormed m) : TreeInvariant m := by
  refine ⟨?_, ?_⟩
  · intro n nd hn
    obtain ⟨l, hl, hnd, -, hrow⟩ := hm.children n nd hn
    exact ⟨l, children_lookup hl, hnd, hrow⟩
  · intro i p pd hi hp r hr
    obtain ⟨l, hl, -⟩ := hm.children p pd hp
    rw [children_count hl] at hr
    have hat := List.getElem?_eq_getElem hr
    obtain ⟨cd, hcd, hcp, -⟩ := hm.children_onRow hp hl r _ hat
    have hrow := indexOf_row hm hi hp
    have hpos := hi.1.1.1
    have hv : ModelIndex.IsValid ⟨r, 0, some l[r]⟩ := ⟨by simp, by simp⟩
    have hne : pd.onRow ≠ -1 := by omega
    refine ⟨⟨r, 0, some l[r]⟩, ⟨pd.onRow, 0, some p⟩, index_eq hi.1 hp hl hat, ?_, hrow, rfl⟩
    simp only [Model.parent, hv, if_true, Model.deref, hcd, Option.bind_eq_bind, Option.bind_some,
      hcp, hp, ne_eq, hne, not_false_eq_true, guard_true, Option.pure_def]

/-- **The structural invariant of the remote tree.** Whatever listings, removals and renames
come, in whatever order, every reachable tree satisfies it. -/
theorem tree_invariant (home : QString) (m₀ : Model)
    (h0 : Model.empty.setUserHomePath home = some m₀) (ops : List Op) (m : Model)
    (hr : run opStep m₀ ops = some m) : TreeInvariant m :=
  (run_wellFormed h0 hr).treeInvariant

theorem tree_invariant_home : ∃ m₀ m, Model.empty.setUserHomePath ['/', 'a'] = some m₀ ∧
    run opStep m₀ [.retrived 1 [smallDir ['b'], smallDir ['c']], .rename 2 ['d'],
      .retrived 0 [smallDir ['a']], .removeRows 1 0 1] = some m ∧ TreeInvariant m := by
  have hrun : ((Model.empty.setUserHomePath ['/', 'a']).bind fun m₀ =>
      run opStep m₀ [.retrived 1 [smallDir ['b'], smallDir ['c']], .rename 2 ['d'],
        .retrived 0 [smallDir ['a']], .removeRows 1 0 1]).isSome := by decide
  obtain ⟨m, hm⟩ := Option.isSome_iff_exists.mp hrun
  obtain ⟨m₀, h0, hr⟩ := Option.bind_eq_some_iff.mp hm
  exact ⟨m₀, m, h0, hr, tree_invariant _ m₀ h0 _ m hr⟩

end NullFxp.RemoteDirModel
