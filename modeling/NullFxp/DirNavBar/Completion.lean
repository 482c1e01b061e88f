import Mathlib.Data.List.Induction
import NullFxp.DirNavBar
import NullFxp.RemoteDirModel.Asserts
import NullFxp.RemoteDirModel.MissingPath

/-!
# Completing a path that is typed

While a path is typed, a remote view goes down the tree along its names, and the bar offers the
directories below the node where it ends.
-/

namespace NullFxp.Completion

open RemoteDirModel

/-! ## The list of the completer -/

/-- The new rows are put before the old ones. Those are removed from the last but one on. -/
def onSetCompleteList (comModel paths : List QString) : List QString :=
  let nrc := paths.length
  let orc := comModel.length
  let rows := (List.range nrc).reverse.foldl (fun rows i => paths[i]?.getD [] :: rows) comModel
  (List.range' nrc (orc - 1)).reverse.foldl (fun rows i => rows.eraseIdx i) rows

theorem insert_rows (paths rows : List QString) :
    (List.range paths.length).reverse.foldl (fun rows i => paths[i]?.getD [] :: rows) rows =
      paths ++ rows := by
  have hpaths : (List.range paths.length).map (fun i => paths[i]?.getD []) = paths := by
    apply List.ext_getElem?
    intro i
    by_cases hi : i < paths.length
    · simp [hi]
    · simp [hi]
  rw [List.foldl_reverse, List.foldr_cons_eq_append, hpaths]

theorem remove_rows (paths gone : List QString) (last : QString) :
    (List.range' paths.length gone.length).reverse.foldl (fun rows i => rows.eraseIdx i)
      (paths ++ gone ++ [last]) = paths ++ [last] := by
  -- By induction on the rows that go, from the last of them.
  induction gone using List.reverseRecOn with
  | nil => simp
  | append_singleton gone row ih =>
    have herase : (paths ++ (gone ++ [row]) ++ [last]).eraseIdx (paths.length + gone.length) =
        paths ++ gone ++ [last] := by
      rw [← List.length_append, ← List.append_assoc, List.append_assoc, List.eraseIdx_append_of_length_le
        (by simp)]
      simp
    rw [List.length_append, List.length_singleton, List.range'_concat, List.reverse_append]
    simp only [List.reverse_singleton, List.singleton_append, List.foldl_cons, Nat.one_mul, herase, ih]

theorem onSetCompleteList_eq (rows paths : List QString) :
    onSetCompleteList rows paths = paths ++ rows.getLast?.toList := by
  unfold onSetCompleteList
  simp only [insert_rows]
  induction rows using List.reverseRecOn with
  | nil => simp
  | append_singleton gone last _ =>
    have hremove := remove_rows paths gone last
    rw [List.append_assoc] at hremove
    simpa using hremove

/-! ## The rows that are offered -/

/-- `filePath` asserts that there is a node. -/
def filePath (m : Model) (index : ModelIndex) : Option QString :=
  (m.deref index.internalPointer).map fun nd => nd.fullPath

/-- The loop over the rows, from the last one on: the paths of the directories. -/
def foundRows (m : Model) (sourceIndex : ModelIndex) : List Nat → Option (List QString)
  | [] => some []
  | i :: rows => do
    let currIndex ← m.index i 0 sourceIndex
    if ← m.isDir currIndex then do
      let path ← filePath m currIndex
      (foundRows m sourceIndex rows).map fun found => path :: found
    else foundRows m sourceIndex rows

/-- The index that is completed. A lookup always gives a valid one, so that the cut is never made. -/
def typedIndex (absolutePath : QString → QString) (m : Model) (text : QString) :
    Option ModelIndex := do
  let sourceIndex ← m.indexPath absolutePath text
  if text = [] then m.index 0 0 .invalid
  else if sourceIndex.IsValid then some sourceIndex
  else
    let pos := DirNavBar.lastSeparator text
    guard (0 ≤ pos)
    m.indexPath absolutePath (text.take (text.length - pos.toNat))

/-- `slot_dir_nav_prefix_changed` of the remote views. Their model has no `canFetchMore`, so that it
is always the rows at hand that are offered. -/
def slotDirNavPrefixChanged (absolutePath : QString → QString) (m : Model) (text : QString) :
    Option (Model × Option (List QString)) := do
  let sourceIndex ← typedIndex absolutePath m text
  if sourceIndex.IsValid then
    let (rc, m) ← m.rowCount sourceIndex
    let found ← foundRows m sourceIndex (List.range rc).reverse
    some (m, some found)
  else some (m, none)

/-- The list of the completer after texts were typed, each while the tree was as it says. -/
def complete (absolutePath : QString → QString) :
    List (Model × QString) → List QString → Option (List QString)
  | [], rows => some rows
  | (m, text) :: typed, rows => do
    let (_, found) ← slotDirNavPrefixChanged absolutePath m text
    complete absolutePath typed (found.elim rows (onSetCompleteList rows))

/-! ## What is found -/

/-- The path of a directory. -/
def dirPath (m : Model) (c : Nat) : Option QString :=
  (m.nodes c).bind fun cd => if cd.isDir then some cd.fullPath else none

/-- A tree in which the names are those of directory entries, and the paths are made of them. -/
structure Sound (m : Model) : Prop where
  follow : PathsFollow m
  rootPath : RootPathEmpty m
  names : EntryNames m
  distinct : DistinctSiblings m

/-- The node that a lookup of the text gives. -/
def Finds (absolutePath : QString → QString) (m : Model) (text : QString) (n : Nat) : Prop :=
  ∃ idx, m.indexPath absolutePath text = some idx ∧ PointsTo idx n

/-- The program stops when rows below a node of this name are counted. -/
def Stops (absolutePath : QString → QString) (m : Model) (text : QString) : Prop :=
  ∃ n nd, Finds absolutePath m text n ∧ m.nodes n = some nd ∧ nd.fileName = wicd

section Tree

variable {m : Model} {absolutePath : QString → QString} {text : QString}

theorem Finds.unique {n n' : Nat} (h : Finds absolutePath m text n)
    (h' : Finds absolutePath m text n') : n = n' := by
  obtain ⟨idx, hlook, hidx⟩ := h
  obtain ⟨idx', hlook', hidx'⟩ := h'
  obtain rfl := Option.some.inj (hlook.symm.trans hlook')
  exact Option.some.inj (hidx.2.symm.trans hidx'.2)

theorem firstChild_of_distinct (hdistinct : DistinctSiblings m) {p c : Nat} {name : QString}
    (h : Child m p name c) : FirstChild m p name c := by
  obtain ⟨cd, hc, hp, hname⟩ := h
  refine ⟨cd, hc, hp, hname, fun k kd hk hkp hkname => ?_⟩
  obtain rfl := hdistinct p name c k ⟨cd, hc, hp, hname⟩ ⟨kd, hk, hkp, hkname⟩
  obtain rfl := Option.some.inj (hc.symm.trans hk)
  exact Int.le_refl _

theorem exists_finds (hm : WellFormed m) (absolutePath : QString → QString) (text : QString) :
    ∃ r n nd, m.rootNode = some r ∧ Finds absolutePath m text n ∧ m.nodes n = some nd ∧
      (Sound m → Deepest m r (pathNames absolutePath text) n) := by
  obtain ⟨r, rd, hr, hrd, -, hrow⟩ := hm.root
  by_cases htext : text = []
  · subst htext
    refine ⟨r, r, rd, hr, ⟨⟨0, 0, some r⟩, ?_, ⟨by simp, by simp⟩, rfl⟩, hrd, fun _ => ?_⟩
    · rw [Model.indexPath, if_pos rfl, hr]
    · exact deepest_nil m r
  have hsearch : (if pathNames absolutePath text = [] then [['/']]
      else pathNames absolutePath text) ≠ [] := by
    split
    · simp
    · assumption
  have hlook : m.indexPath absolutePath text = m.findNodeItemByPathElements r
      (if pathNames absolutePath text = [] then [['/']] else pathNames absolutePath text) := by
    rw [pathNames, if_neg htext, Model.indexPath, if_neg htext, hr, Option.bind_some]
    cases components (absolutePath text) <;> rfl
  obtain ⟨gone, left, n, nd, row, heq, hgone, hn, hfound, hend⟩ :=
    findNodeItem_spec hm _ hsearch hrd
  have hpoints : PointsTo ⟨row, 0, some n⟩ n := by
    rcases hend with ⟨-, rfl⟩ | ⟨-, -, -, rfl, -⟩
    · exact (indexOf_onRow hm hn).1
    · exact ⟨⟨by simp, by simp⟩, rfl⟩
  refine ⟨r, n, nd, hr, ⟨_, hlook.trans hfound, hpoints⟩, hn, fun h => ?_⟩
  have hlead : Leads (Child m) r gone n := leads_mono (fun _ _ _ hc => hc.child) hgone
  split at heq
  · next hnil =>
    -- "/" is no name of an entry, so that the search for it ends at the root.
    rw [hnil]
    have hgone' : gone = [] := by
      cases gone with
      | nil => rfl
      | cons name gone =>
        obtain ⟨rfl, -⟩ := List.cons.inj heq
        obtain ⟨c, ⟨cd, hc, hp, hname⟩, -⟩ := hlead
        have hentry := h.names c cd hc (by simp [hp])
        rw [hname] at hentry
        exact absurd hentry (by decide)
    subst hgone'
    obtain rfl : n = r := hlead
    exact deepest_nil m n
  · refine ⟨gone, ⟨left, heq.symm⟩, hlead, fun longer hlonger hlt k hk => ?_⟩
    rcases hend with ⟨rfl, -⟩ | ⟨name, rest, rfl, -, hnone⟩
    · rw [heq, List.append_nil] at hlonger
      exact absurd hlonger.length_le (by omega)
    · rw [heq] at hlonger
      exact not_leads_longer hm hgone hnone hlonger hlt k
        (leads_mono (fun _ _ _ hc => firstChild_of_distinct h.distinct hc) hk)

theorem foundRows_eq {idx : ModelIndex} {n : Nat} {nd : NetDirNode} {l : List Nat}
    (hidx : PointsTo idx n) (hn : m.nodes n = some nd) (hl : Children nd l)
    (hall : ∀ c ∈ l, m.nodes c ≠ none) (rows : List Nat) (hrows : ∀ i ∈ rows, i < l.length) :
    foundRows m idx rows = some (rows.filterMap fun i => l[i]?.bind (dirPath m)) := by
  induction rows with
  | nil => rfl
  | cons i rows ih =>
    obtain ⟨c, hi⟩ : ∃ c, l[i]? = some c := ⟨_, List.getElem?_eq_getElem (hrows i (by simp))⟩
    obtain ⟨cd, hcd⟩ := Option.ne_none_iff_exists'.mp (hall _ (List.mem_of_getElem? hi))
    have hdir : m.isDir ⟨i, 0, some c⟩ = some cd.isDir :=
      isDir_eq ⟨⟨by simp, by simp⟩, rfl⟩ hcd
    have ih := ih fun j hj => hrows j (by simp [hj])
    unfold foundRows
    rw [index_eq hidx hn hl hi, Option.bind_eq_bind, Option.bind_some, hdir, Option.bind_eq_bind,
      Option.bind_some, List.filterMap_cons, hi, Option.bind_some, dirPath, hcd, Option.bind_some]
    split
    · simp [filePath, Model.deref, hcd, ih]
    · simp [ih]

theorem filterMap_rows (l : List Nat) : (List.range l.length).filterMap (fun i => l[i]?) = l := by
  induction l with
  | nil => rfl
  | cons c l ih =>
    rw [List.length_cons, List.range_succ_eq_map, List.filterMap_cons, List.filterMap_map]
    simpa [Function.comp_def] using ih

theorem rows_dirPaths (l : List Nat) :
    ((List.range l.length).reverse.filterMap fun i => l[i]?.bind (dirPath m)) =
      (l.filterMap (dirPath m)).reverse := by
  rw [List.filterMap_reverse, ← List.filterMap_filterMap, filterMap_rows]

/-- **What a typed path offers**: the directories below the node that it leads to, the last row
first. -/
theorem slot_eq (hm : WellFormed m) {n : Nat} {nd : NetDirNode} {l : List Nat}
    (hfinds : Finds absolutePath m text n) (hn : m.nodes n = some nd) (hl : Children nd l) :
    slotDirNavPrefixChanged absolutePath m text =
      if nd.fileName = wicd then none
      else some (m.queried n nd, some (l.filterMap (dirPath m)).reverse) := by
  obtain ⟨idx, hlook, hidx⟩ := hfinds
  have hsame : typedIndex absolutePath m text = some idx := by
    unfold typedIndex
    rw [hlook, Option.bind_eq_bind, Option.bind_some]
    by_cases htext : text = []
    · rw [if_pos htext, ← hlook, htext]
      rfl
    · rw [if_neg htext, if_pos hidx.1]
  unfold slotDirNavPrefixChanged
  rw [hsame, Option.bind_eq_bind, Option.bind_some, if_pos hidx.1]
  split
  · next hname =>
    rw [rowCount_wicd hidx hn hname]
    rfl
  · next hname =>
    rw [rowCount_eq hidx hn hname, requestListing_eq hn, Option.map_some, Option.bind_eq_bind,
      Option.bind_some]
    have hself : (m.queried n nd).nodes n = some nd.afterQuery := queried_nodes_self
    have hother : ∀ c ∈ l, (m.queried n nd).nodes c = m.nodes c := fun c hc =>
      queried_nodes_ne fun heq => hm.not_mem_children_self hn hl (heq ▸ hc)
    have hpaths : l.filterMap (dirPath (m.queried n nd)) = l.filterMap (dirPath m) :=
      List.filterMap_congr fun c hc => by rw [dirPath, dirPath, hother c hc]
    have hthere : ∀ c ∈ l, (m.queried n nd).nodes c ≠ none := by
      intro c hc
      obtain ⟨cd, hcd, -⟩ := par_some ((hm.mem_children hn hl c).mp hc)
      simp [hother c hc, hcd]
    have hl' : Children nd.afterQuery l := ((afterQuery_sameLinks nd).children l).mpr hl
    simp only [children_count hl]
    rw [foundRows_eq hidx hself hl' hthere _ fun i hi => by simpa using hi, rows_dirPaths, hpaths]
    rfl

/-- What is offered are the paths of the directories below `n`. -/
def Offers (m : Model) (n : Nat) (found : List QString) : Prop :=
  ∀ path, path ∈ found ↔ ∃ c cd, m.nodes c = some cd ∧ cd.pNode = some n ∧ cd.isDir = true ∧
    cd.fullPath = path

theorem offers_dirPaths (hm : WellFormed m) {n : Nat} {nd : NetDirNode} {l : List Nat}
    (hn : m.nodes n = some nd) (hl : Children nd l) :
    Offers m n (l.filterMap (dirPath m)).reverse := by
  intro path
  rw [List.mem_reverse, List.mem_filterMap]
  constructor
  · rintro ⟨c, hc, hpath⟩
    obtain ⟨cd, hcd, hp⟩ := par_some ((hm.mem_children hn hl c).mp hc)
    rw [dirPath, hcd, Option.bind_some] at hpath
    split at hpath
    · next hdir => exact ⟨c, cd, hcd, hp, hdir, Option.some.inj hpath⟩
    · cases hpath
  · rintro ⟨c, cd, hcd, hp, hdir, rfl⟩
    refine ⟨c, (hm.mem_children hn hl c).mpr ((par_eq hcd).trans hp), ?_⟩
    simp [dirPath, hcd, hdir]

theorem Offers.leads_back (hm : WellFormed m) (h : Sound m) (habs : Normalises absolutePath)
    {n : Nat} {found : List QString} (hoffers : Offers m n found) {path : QString}
    (hpath : path ∈ found) : ∃ c cd, m.nodes c = some cd ∧ cd.pNode = some n ∧
      cd.fullPath = path ∧ Finds absolutePath m path c := by
  obtain ⟨c, cd, hcd, hp, -, rfl⟩ := (hoffers path).mp hpath
  have hlook := indexPath_fullPath hm h.follow h.rootPath h.names habs h.distinct hcd
  exact ⟨c, cd, hcd, hp, rfl, _, hlook, (indexOf_onRow hm hcd).1⟩

theorem slot_cases (hm : WellFormed m) (absolutePath : QString → QString) (text : QString) :
    (Stops absolutePath m text ∧ slotDirNavPrefixChanged absolutePath m text = none) ∨
      ¬ Stops absolutePath m text ∧ ∃ n m' found, Finds absolutePath m text n ∧
        Offers m n found ∧ slotDirNavPrefixChanged absolutePath m text = some (m', some found) := by
  obtain ⟨r, n, nd, -, hfinds, hn, -⟩ := exists_finds hm absolutePath text
  obtain ⟨l, hl, -⟩ := hm.children n nd hn
  have hslot := slot_eq hm hfinds hn hl
  by_cases hname : nd.fileName = wicd
  · rw [if_pos hname] at hslot
    exact Or.inl ⟨⟨n, nd, hfinds, hn, hname⟩, hslot⟩
  · rw [if_neg hname] at hslot
    refine Or.inr ⟨?_, n, _, _, hfinds, offers_dirPaths hm hn hl, hslot⟩
    rintro ⟨n', nd', hfinds', hn', hname'⟩
    obtain rfl := hfinds.unique hfinds'
    obtain rfl := Option.some.inj (hn.symm.trans hn')
    exact hname hname'

end Tree

/-! ## Runs -/

section Runs

variable {absolutePath : QString → QString} {typed : List (Model × QString)}

theorem complete_append (before after : List (Model × QString)) (rows : List QString) :
    complete absolutePath (before ++ after) rows =
      (complete absolutePath before rows).bind (complete absolutePath after) := by
  induction before generalizing rows with
  | nil => rfl
  | cons t before ih =>
    simp only [List.cons_append, complete, Option.bind_eq_bind, Option.bind_assoc, ih]

theorem getLast_onSetCompleteList {rows : List QString} (h : rows ≠ []) (paths : List QString) :
    (onSetCompleteList rows paths).getLast? = rows.getLast? := by
  rw [onSetCompleteList_eq, List.getLast?_eq_some_getLast h]
  simp

theorem complete_none_iff (h : ∀ t ∈ typed, WellFormed t.1) (rows : List QString) :
    complete absolutePath typed rows = none ↔ ∃ t ∈ typed, Stops absolutePath t.1 t.2 := by
  induction typed generalizing rows with
  | nil => simp [complete]
  | cons t typed ih =>
    obtain ⟨hm, h⟩ := List.forall_mem_cons.mp h
    rw [List.exists_mem_cons_iff]
    rcases slot_cases hm absolutePath t.2 with ⟨hstops, hslot⟩ | ⟨hgoes, _, _, _, -, -, hslot⟩
    · simp [complete, hslot, hstops]
    · simp [complete, hslot, hgoes, ih h]

theorem complete_getLast (h : ∀ t ∈ typed, WellFormed t.1) {rows rows' : List QString}
    (hrun : complete absolutePath typed rows = some rows') (hne : rows ≠ []) :
    rows'.getLast? = rows.getLast? := by
  induction typed generalizing rows with
  | nil => rw [Option.some.inj hrun]
  | cons t typed ih =>
    obtain ⟨hm, h⟩ := List.forall_mem_cons.mp h
    rcases slot_cases hm absolutePath t.2 with ⟨-, hslot⟩ | ⟨-, _, _, found, -, -, hslot⟩
    · simp [complete, hslot] at hrun
    · have hlast := getLast_onSetCompleteList hne found
      have hne' : onSetCompleteList rows found ≠ [] := by
        rw [← List.getLast?_isSome, hlast, List.getLast?_isSome]
        exact hne
      simp only [complete, hslot, Option.bind_eq_bind, Option.bind_some, Option.elim_some] at hrun
      rw [ih h hrun hne', hlast]

end Runs

/-- **The completions over a run.** After each text the list has the directories below the node that
the text leads to, and at its end one row of the list before: that row never changes once it is
there. In a sound tree the node is the deepest on the path, and what is offered leads back. -/
theorem completion_run (absolutePath : QString → QString) (habs : Normalises absolutePath)
    (typed : List (Model × QString)) (h : ∀ t ∈ typed, WellFormed t.1) (rows : List QString) :
    (complete absolutePath typed rows = none ↔ ∃ t ∈ typed, Stops absolutePath t.1 t.2) ∧
    ∀ rows', complete absolutePath typed rows = some rows' →
      (rows ≠ [] → rows'.getLast? = rows.getLast?) ∧
      ∀ before m text, typed = before ++ [(m, text)] → ∃ n found old,
        Finds absolutePath m text n ∧ Offers m n found ∧
        complete absolutePath before rows = some old ∧ rows' = found ++ old.getLast?.toList ∧
        (Sound m →
          (∃ r, m.rootNode = some r ∧ Deepest m r (pathNames absolutePath text) n) ∧
          ∀ path ∈ found, ∃ c cd, m.nodes c = some cd ∧ cd.pNode = some n ∧
            cd.fullPath = path ∧ Finds absolutePath m path c) := by
  refine ⟨complete_none_iff h rows, fun rows' hrun => ⟨complete_getLast h hrun, ?_⟩⟩
  rintro before m text rfl
  have hm : WellFormed m := h (m, text) (by simp)
  rw [complete_append, Option.bind_eq_some_iff] at hrun
  obtain ⟨old, hold, hlast⟩ := hrun
  rcases slot_cases hm absolutePath text with ⟨-, hslot⟩ | ⟨-, n, _, found, hfinds, hoffers, hslot⟩
  · simp [complete, hslot] at hlast
  · simp only [complete, hslot, Option.bind_eq_bind, Option.bind_some, Option.elim_some,
      Option.some.injEq] at hlast
    refine ⟨n, found, old, hfinds, hoffers, hold, hlast.symm.trans (onSetCompleteList_eq _ _), ?_⟩
    intro hsound
    obtain ⟨r, n', -, hr, hfinds', -, hdeep⟩ := exists_finds hm absolutePath text
    obtain rfl := hfinds.unique hfinds'
    exact ⟨⟨r, hr, hdeep hsound⟩, fun path hpath => hoffers.leads_back hm hsound habs hpath⟩

/-- The tree of a view that was opened with the home "/a/b". -/
def exampleTree : Model := (Model.empty.setUserHomePath "/a/b".toList).getD .empty

theorem wellFormed_exampleTree : WellFormed exampleTree := by
  obtain ⟨m, h0, hm, -⟩ := setUserHomePath_chain (show "/a/b".toList.head? = some '/' from rfl)
  rw [exampleTree, h0]
  exact hm

theorem completion_run_home :
    complete oneSlash [(exampleTree, "/a".toList), (exampleTree, "/".toList)] [] =
      some ["/a".toList, "/a/b".toList] ∧ Offers exampleTree 0 ["/a".toList] := by
  have hfirst : complete oneSlash [(exampleTree, "/a".toList)] [] = some ["/a/b".toList] := by
    decide +kernel
  have hrun : complete oneSlash [(exampleTree, "/a".toList), (exampleTree, "/".toList)] [] =
      some ["/a".toList, "/a/b".toList] := by
    decide +kernel
  have hroot : exampleTree.indexPath oneSlash "/".toList = some ⟨0, 0, some 0⟩ := by decide +kernel
  obtain ⟨n, found, old, ⟨idx, hlook, hidx⟩, hoffers, hold, hrows, -⟩ :=
    ((completion_run oneSlash normalises_oneSlash _ (by simpa using wellFormed_exampleTree) []).2
      _ hrun).2 [(exampleTree, "/a".toList)] _ _ rfl
  obtain rfl := Option.some.inj (hroot.symm.trans hlook)
  obtain rfl : 0 = n := Option.some.inj hidx.2
  obtain rfl := Option.some.inj (hfirst.symm.trans hold)
  obtain rfl : ["/a".toList] = found :=
    List.append_cancel_right (show ["/a".toList] ++ ["/a/b".toList] = found ++ _ from hrows)
  exact ⟨hrun, hoffers⟩

end NullFxp.Completion
