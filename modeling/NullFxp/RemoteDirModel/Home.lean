import NullFxp.RemoteDirModel.Reachable

/-!
# The initial tree

`set_user_home_path` makes one node for the root and one for each part of the home path, up to the
first empty part. The last node is the one whose listing is still to come.
-/

open RowMap

namespace NullFxp.RemoteDirModel

/-! ## Chains -/

/-- The path of the first `k` names. -/
def pathOf (names : List QString) (k : Nat) : QString := (names.take k).flatMap ('/' :: ·)

/-- The node of a chain at place `k`; `names` are those below the root. -/
def ChainNode (names : List QString) (flag : Nat → UInt8) (k : Nat) (nd : NetDirNode) : Prop :=
  (['/'] :: names)[k]? = some nd.fileName ∧ nd.fullPath = pathOf names k ∧
    nd.pNode = (if k = 0 then none else some (k - 1)) ∧ nd.onRow = 0 ∧
    Children nd (if k < names.length then [k + 1] else []) ∧ nd.retrFlag = flag k

/-- The tree is one chain, and has no other node. -/
structure IsChain (m : Model) (names : List QString) (flag : Nat → UInt8) : Prop where
  root : m.rootNode = some 0
  next : m.next = names.length + 1
  node : ∀ k ≤ names.length, ∃ nd, m.nodes k = some nd ∧ ChainNode names flag k nd
  only : ∀ k, names.length < k → m.nodes k = none

theorem pathOf_append (names : List QString) (part : QString) :
    pathOf (names ++ [part]) (names.length + 1) = childPath (pathOf names names.length) part := by
  rw [pathOf, List.take_of_length_le (by simp), pathOf, List.take_length, List.flatMap_append]
  simp [childPath]

theorem pathOf_append_of_le {names : List QString} (part : QString) {k : Nat} (h : k ≤ names.length) :
    pathOf (names ++ [part]) k = pathOf names k := by
  rw [pathOf, List.take_append_of_le_length h]
  rfl

/-- `retrFlag` of node `k` of the initial tree -/
def homeFlag (home : QString) (count k : Nat) : UInt8 :=
  if home = ['/'] then popNoNeedNoData
  else if k = count - 1 then popNoNeedNoData else popNoNeedWithData

/-! ## The loop -/

section

variable {home : QString} {count : Nat} {m : Model} {names : List QString}

theorem IsChain.withHome (h : IsChain m names (homeFlag home count)) {pd : NetDirNode}
    (hp : m.nodes names.length = some pd) (part : QString) :
    IsChain (m.withHome names.length pd (Model.homeNode home count (names.length + 1)
      (childPath (pathOf names names.length) part) part)) (names ++ [part]) (homeFlag home count) := by
  have hne : names.length ≠ m.next := by rw [h.next]; omega
  have hlast : ∀ k, k ≠ m.next → (m.withHome names.length pd (Model.homeNode home count
      (names.length + 1) (childPath (pathOf names names.length) part) part)).nodes k =
      (m.withRow names.length pd 0).nodes k := fun k hk => Model.set_nodes_ne _ _ hk
  refine ⟨h.root, ?_, ?_, ?_⟩
  · change m.next + 1 = _
    rw [h.next, List.length_append, List.length_singleton]
  · intro k hk
    rw [List.length_append, List.length_singleton] at hk
    have hname : ∀ j ≤ names.length, (['/'] :: (names ++ [part]))[j]? = (['/'] :: names)[j]? := by
      intro j hj
      rw [← List.cons_append, List.getElem?_append_left (by simp; omega)]
    have hmore : k ≤ names.length → k < (names ++ [part]).length := fun h => by simp; omega
    rcases Nat.lt_trichotomy k names.length with hlt | rfl | hgt
    · obtain ⟨nd, hnd, hfile, hpath, hpar, hrow, hl, hflag⟩ := h.node k hlt.le
      refine ⟨nd, ?_, ?_⟩
      · rw [hlast k (by rw [h.next]; omega), withRow_nodes_ne (by omega) (by rw [h.next]; omega), hnd]
      · rw [if_pos hlt] at hl
        refine ⟨(hname k hlt.le).trans hfile, ?_, hpar, hrow, ?_, hflag⟩
        · rw [pathOf_append_of_le part hlt.le, hpath]
        · rwa [if_pos (hmore hlt.le)]
    · obtain ⟨nd, hnd, hfile, hpath, hpar, hrow, hl, hflag⟩ := h.node _ le_rfl
      obtain rfl := Option.some.inj (hp.symm.trans hnd)
      refine ⟨_, (hlast _ hne).trans (withRow_nodes_self 0), ?_⟩
      rw [if_neg (lt_irrefl _)] at hl
      refine ⟨(hname _ le_rfl).trans hfile, ?_, hpar, hrow, ?_, hflag⟩
      · rw [pathOf_append_of_le part le_rfl, ← hpath]
      · rw [if_pos (hmore le_rfl), ← h.next]
        exact children_append hl m
    · obtain rfl : k = names.length + 1 := by omega
      rw [← h.next]
      refine ⟨_, Model.set_nodes_self .., ?_⟩
      rw [h.next]
      refine ⟨by simp [Model.homeNode, NetDirNode.copyFrom], ?_, ?_, rfl, ?_, rfl⟩
      · exact (pathOf_append names part).symm
      · rfl
      · rw [if_neg (by simp)]
        exact holds_empty
  · intro k hk
    rw [List.length_append, List.length_singleton] at hk
    rw [hlast k (by rw [h.next]; omega), withRow_nodes_ne (by omega) (by rw [h.next]; omega)]
    exact h.only k (by omega)

theorem homeLoop_chain (parts : List QString) (hm : WellFormed m)
    (h : IsChain m names (homeFlag home count)) :
    ∃ m', Model.homeLoop home count parts (names.length + 1) (pathOf names names.length)
        ⟨0, 0, some names.length⟩ m = some m' ∧ WellFormed m' ∧
      IsChain m' (names ++ parts.takeWhile (· ≠ [])) (homeFlag home count) := by
  induction parts generalizing m names with
  | nil => exact ⟨m, rfl, hm, by simpa using h⟩
  | cons part parts ih =>
    by_cases hpart : part = []
    · refine ⟨m, ?_, hm, by simpa [hpart] using h⟩
      rw [Model.homeLoop, if_pos ⟨by omega, hpart⟩]
    · obtain ⟨pd, hp, -, -, -, -, hl, -⟩ := h.node names.length le_rfl
      rw [if_neg (lt_irrefl _)] at hl
      have hidx : PointsTo ⟨0, 0, some names.length⟩ names.length := ⟨⟨by simp, by simp⟩, rfl⟩
      have hwf := withHome_wellFormed hm hp hl (Model.homeNode home count (names.length + 1)
        (childPath (pathOf names names.length) part) part)
      obtain ⟨m', hloop, hwf', hchain⟩ := ih hwf (h.withHome hp part)
      rw [List.length_append, List.length_singleton, pathOf_append] at hloop
      refine ⟨m', ?_, hwf', ?_⟩
      · rw [homeLoop_cons hm hp hl hidx (by omega) hpart, h.next]
        exact hloop
      · rw [List.takeWhile_cons_of_pos (by simpa using hpart)]
        simpa using hchain

theorem homeRoot_chain : IsChain (homeRoot home count) [] (homeFlag home count) := by
  refine ⟨rfl, rfl, ?_, ?_⟩
  · intro k hk
    obtain rfl : k = 0 := by simpa using hk
    exact ⟨_, Model.set_nodes_self .., rfl, rfl, rfl, rfl, holds_empty, rfl⟩
  · intro k hk
    have hk0 : k ≠ 0 := Nat.ne_of_gt hk
    rw [homeRoot, Model.set_nodes_ne _ _ hk0, Option.eq_none_iff_forall_ne_some]
    intro nd hnd
    exact hk0 (rootOnly_nodes k nd hnd).1

end

/-- The parts of the home path that become nodes. -/
def homeNames (home : QString) : List QString := (home.splitOn '/').tail.takeWhile (· ≠ [])

/-- **The initial tree** is a chain, whatever the home path is. -/
theorem setUserHomePath_chain {home : QString} (h : home.head? = some '/') :
    ∃ m, Model.empty.setUserHomePath home = some m ∧ WellFormed m ∧
      IsChain m (homeNames home) (homeFlag home (home.splitOn '/').length) := by
  obtain ⟨rest, rfl⟩ : ∃ rest, home = '/' :: rest := by
    cases home with
    | nil => cases h
    | cons c rest => exact ⟨rest, by rw [Option.some.inj h]⟩
  rw [setUserHomePath_eq, if_pos (by simp)]
  exact homeLoop_chain _ (homeRoot_wellFormed _ _) homeRoot_chain

/-! ## The chain that the home path stands for -/

/-- The listing of the last node is still to come, the others have a part of their rows. -/
def lastUnlisted (names : List QString) (k : Nat) : UInt8 :=
  if k = names.length then popNoNeedNoData else popNoNeedWithData

/-- The tree follows the home path: all its names are there, and nothing else. -/
def FollowsHome (home : QString) (m : Model) : Prop :=
  IsChain m (components home) (lastUnlisted (components home))

theorem IsChain.flag_eq {m : Model} {names names' : List QString} {f g : Nat → UInt8}
    (hf : IsChain m names f) (hg : IsChain m names' g) {k : Nat} (hk : k ≤ names.length) :
    f k = g k := by
  have hlen : names.length = names'.length := by
    have := hf.next.symm.trans hg.next
    omega
  obtain ⟨nd, hnd, -, -, -, -, -, hflag⟩ := hf.node k hk
  obtain ⟨nd', hnd', -, -, -, -, -, hflag'⟩ := hg.node k (hlen ▸ hk)
  obtain rfl := Option.some.inj (hnd.symm.trans hnd')
  exact hflag.symm.trans hflag'

theorem IsChain.congr {m : Model} {names : List QString} {f g : Nat → UInt8} (hf : IsChain m names f)
    (h : ∀ k ≤ names.length, f k = g k) : IsChain m names g := by
  refine ⟨hf.root, hf.next, ?_, hf.only⟩
  intro k hk
  obtain ⟨nd, hnd, hfile, hpath, hpar, hrow, hl, hflag⟩ := hf.node k hk
  exact ⟨nd, hnd, hfile, hpath, hpar, hrow, hl, hflag.trans (h k hk)⟩

variable {home : QString}

theorem splitOn_slash (h : home.head? = some '/') :
    home.splitOn '/' = [] :: (home.splitOn '/').tail := by
  cases home with
  | nil => cases h
  | cons c rest =>
    obtain rfl : '/' = c := (Option.some.inj h).symm
    rw [List.splitOn_cons_eq_if_modifyHead]
    simp

theorem homeNames_length_lt (h : [] ∈ (home.splitOn '/').tail) :
    (homeNames home).length < (home.splitOn '/').length - 1 := by
  rw [← List.length_tail, homeNames]
  by_contra hle
  have hall := (List.takeWhile_prefix (fun part : QString => decide (part ≠ []))).eq_of_length_le
    (not_lt.mp hle)
  have := List.takeWhile_eq_self_iff.mp hall [] h
  simp at this

theorem homeNames_eq (h : [] ∉ (home.splitOn '/').tail) : homeNames home = (home.splitOn '/').tail := by
  rw [homeNames, List.takeWhile_eq_self_iff]
  intro part hpart
  simpa using ne_of_mem_of_not_mem hpart h

theorem components_eq (hslash : home.head? = some '/') (h : [] ∉ (home.splitOn '/').tail) :
    components home = (home.splitOn '/').tail := by
  rw [components, splitOn_slash hslash, List.filter_cons_of_neg (by simp), List.tail_cons,
    List.filter_eq_self]
  intro part hpart
  simpa using ne_of_mem_of_not_mem hpart h

/-- **The initial tree follows the home path** just if the path is "/", or no slash in it follows
another one or ends it. -/
theorem initial_tree_iff (home : QString) (hslash : home.head? = some '/') :
    (∃ m, Model.empty.setUserHomePath home = some m ∧ FollowsHome home m) ↔
      home = ['/'] ∨ [] ∉ (home.splitOn '/').tail := by
  obtain ⟨m, hm, -, hchain⟩ := setUserHomePath_chain hslash
  constructor
  · rintro ⟨m', hm', hfollows⟩
    obtain rfl := Option.some.inj (hm.symm.trans hm')
    by_contra hbad
    rw [not_or, not_not] at hbad
    have hlt := homeNames_length_lt hbad.2
    have hlen : (homeNames home).length = (components home).length := by
      have := hchain.next.symm.trans hfollows.next
      omega
    have hflag := hchain.flag_eq hfollows le_rfl
    rw [homeFlag, if_neg hbad.1, if_neg (by omega), lastUnlisted, if_pos hlen] at hflag
    exact absurd hflag (by decide)
  · intro h
    refine ⟨m, hm, ?_⟩
    by_cases hroot : home = ['/']
    · subst hroot
      have hnames : homeNames ['/'] = [] := by decide
      have hcomps : components ['/'] = [] := by decide
      rw [hnames] at hchain
      rw [FollowsHome, hcomps]
      apply hchain.congr
      intro k hk
      obtain rfl : k = 0 := by simpa using hk
      rfl
    · have hparts := h.resolve_left hroot
      rw [FollowsHome, components_eq hslash hparts]
      rw [homeNames_eq hparts] at hchain
      apply hchain.congr
      intro k _
      rw [homeFlag, if_neg hroot, lastUnlisted, List.length_tail]

theorem initial_tree_gzl : ∃ m, Model.empty.setUserHomePath "/home/gzl".toList = some m ∧
    FollowsHome "/home/gzl".toList m :=
  (initial_tree_iff "/home/gzl".toList rfl).mpr (Or.inr (by decide))

theorem trailing_slash_flag : ∃ m, Model.empty.setUserHomePath "/home/gzleo/".toList = some m ∧
    ¬ FollowsHome "/home/gzleo/".toList m := by
  -- The fifth case that the source has in its comment.
  obtain ⟨m, hm, -, hchain⟩ := setUserHomePath_chain (show "/home/gzleo/".toList.head? = some '/' from rfl)
  refine ⟨m, hm, ?_⟩
  intro hfollows
  exact absurd (hchain.flag_eq hfollows (show 2 ≤ (homeNames "/home/gzleo/".toList).length by decide))
    (by decide)

end NullFxp.RemoteDirModel
