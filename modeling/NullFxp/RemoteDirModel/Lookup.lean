import NullFxp.RemoteDirModel.Home
import NullFxp.RemoteDirModel.Paths

/-!
# Looking up a path

`index(path)` goes down from the root, at each step to the first row that has the next name of the
path. Where there is none it stops, and answers with the node it stands on.
-/

open RowMap

namespace NullFxp.RemoteDirModel

namespace Model

/-- The first of the rows that has the name, and its node. -/
def findRow (m : Model) (nd : NetDirNode) (name : QString) : List Nat → Option (Option (Nat × Nat))
  | [] => some none
  | i :: is => do
    let childItem ← nd.childAt i
    let cd ← m.nodes childItem
    if cd.fileName = name then some (some (i, childItem)) else findRow m nd name is

/-- The list is the part of `path_elements` from `level` on. -/
def findNodeItemByPathElements (m : Model) (parentNodeItem : Nat) :
    List QString → Option ModelIndex
  | [] => none
  | name :: rest => do
    let nd ← m.nodes parentNodeItem
    match ← m.findRow nd name (List.range nd.childNodes.count) with
    | some (i, childItem) =>
      if rest = [] then some ⟨i, 0, some childItem⟩
      else m.findNodeItemByPathElements childItem rest
    | none => some ⟨0, 0, some parentNodeItem⟩

/-- `absolutePath` is that of `QDir`. -/
def indexPath (absolutePath : QString → QString) (m : Model) (path : QString) :
    Option ModelIndex :=
  if path = [] then some ⟨0, 0, m.rootNode⟩
  else
    let pathElements := ['/'] :: components (absolutePath path)
    m.rootNode.bind fun r =>
      m.findNodeItemByPathElements r (pathElements.drop (if pathElements.length = 1 then 0 else 1))

end Model

/-! ## Nodes along names -/

variable {m : Model}

/-- `c` hangs below `p` and is named `name`. -/
def Child (m : Model) (p : Nat) (name : QString) (c : Nat) : Prop :=
  ∃ cd, m.nodes c = some cd ∧ cd.pNode = some p ∧ cd.fileName = name

/-- The child of that name in the lowest row. -/
def FirstChild (m : Model) (p : Nat) (name : QString) (c : Nat) : Prop :=
  ∃ cd, m.nodes c = some cd ∧ cd.pNode = some p ∧ cd.fileName = name ∧
    ∀ k kd, m.nodes k = some kd → kd.pNode = some p → kd.fileName = name → cd.onRow ≤ kd.onRow

/-- Steps of `R` along the names lead from `p` to `n`. -/
def Leads (R : Nat → QString → Nat → Prop) : Nat → List QString → Nat → Prop
  | p, [], n => n = p
  | p, name :: names, n => ∃ c, R p name c ∧ Leads R c names n

theorem FirstChild.child {p c : Nat} {name : QString} (h : FirstChild m p name c) :
    Child m p name c := by
  obtain ⟨cd, hc, hp, hname, -⟩ := h
  exact ⟨cd, hc, hp, hname⟩

theorem leads_append {R : Nat → QString → Nat → Prop} {p n : Nat} {l k : List QString} :
    Leads R p (l ++ k) n ↔ ∃ q, Leads R p l q ∧ Leads R q k n := by
  induction l generalizing p with
  | nil => simp [Leads]
  | cons name l ih =>
    simp only [List.cons_append, Leads, ih]
    constructor
    · rintro ⟨c, hc, q, hq, hn⟩
      exact ⟨q, ⟨c, hc, hq⟩, hn⟩
    · rintro ⟨q, ⟨c, hc, hq⟩, hn⟩
      exact ⟨c, hc, q, hq, hn⟩

theorem leads_mono {R S : Nat → QString → Nat → Prop} (h : ∀ p name c, R p name c → S p name c)
    {p n : Nat} {l : List QString} (hl : Leads R p l n) : Leads S p l n := by
  induction l generalizing p with
  | nil => exact hl
  | cons name l ih =>
    obtain ⟨c, hc, hn⟩ := hl
    exact ⟨c, h p name c hc, ih hn⟩

theorem leads_unique {R : Nat → QString → Nat → Prop}
    (h : ∀ p name c c', R p name c → R p name c' → c = c') {p n n' : Nat} {l : List QString}
    (hn : Leads R p l n) (hn' : Leads R p l n') : n = n' := by
  induction l generalizing p with
  | nil => exact hn.trans hn'.symm
  | cons name l ih =>
    obtain ⟨c, hc, hn⟩ := hn
    obtain ⟨c', hc', hn'⟩ := hn'
    obtain rfl := h p name c c' hc hc'
    exact ih hn hn'

/-! ## What the search finds -/

section

variable (hm : WellFormed m) {n : Nat} {nd : NetDirNode} {l : List Nat} (hn : m.nodes n = some nd)
  (hl : Children nd l)

include hm hn hl

theorem child_iff (name : QString) (c : Nat) : Child m n name c ↔ c ∈ l ∧ nameOf m c = name := by
  rw [hm.mem_children hn hl]
  constructor
  · rintro ⟨cd, hc, hp, hname⟩
    exact ⟨(par_eq hc).trans hp, (nameOf_eq hc).trans hname⟩
  · rintro ⟨hp, hname⟩
    obtain ⟨cd, hc, hp⟩ := par_some hp
    exact ⟨cd, hc, hp, (nameOf_eq hc).symm.trans hname⟩

theorem findRow_eq (name : QString) (rows : List Nat) (hrows : ∀ j ∈ rows, j < l.length) :
    m.findRow nd name rows = some ((rows.find? fun j => l[j]?.any fun c => nameOf m c = name).bind
      fun j => l[j]?.map fun c => (j, c)) := by
  induction rows with
  | nil => rfl
  | cons j rows ih =>
    have hlt : j < l.length := hrows j (by simp)
    have hj : l[j]? = some l[j] := List.getElem?_eq_getElem hlt
    obtain ⟨cd, hcd, -⟩ := hm.children_onRow hn hl j _ hj
    have hrow : (l[j]?.any fun c => decide (nameOf m c = name)) = decide (cd.fileName = name) := by
      rw [hj, Option.any_some, nameOf_eq hcd]
    rw [Model.findRow, children_childAt hl, hj, List.find?_cons, hrow]
    simp only [Option.bind_eq_bind, Option.bind_some, hcd]
    by_cases hname : cd.fileName = name
    · simp [hname, hj]
    · simp [hname, ih fun k hk => hrows k (by simp [hk])]

theorem findRow_spec (name : QString) :
    (∃ i c cd, m.findRow nd name (List.range nd.childNodes.count) = some (some (i, c)) ∧
      FirstChild m n name c ∧ m.nodes c = some cd ∧ cd.onRow = i ∧ l[i]? = some c) ∨
    m.findRow nd name (List.range nd.childNodes.count) = some none ∧ ∀ c, ¬ Child m n name c := by
  rw [children_count hl, findRow_eq hm hn hl name _ (by simp)]
  cases hfind : (List.range l.length).find? fun j => l[j]?.any fun c => nameOf m c = name with
  | none =>
    right
    refine ⟨rfl, ?_⟩
    intro c hc
    obtain ⟨hmem, hname⟩ := (child_iff hm hn hl name c).mp hc
    obtain ⟨j, hj⟩ := List.getElem?_of_mem hmem
    have hlt := (List.getElem?_eq_some_iff.mp hj).1
    have hnot := List.find?_range_eq_none.mp hfind j hlt
    simp [hj, hname] at hnot
  | some i =>
    left
    obtain ⟨hi, hlt, hbefore⟩ := List.find?_range_eq_some.mp hfind
    have hlt := List.mem_range.mp hlt
    have hget : l[i]? = some l[i] := List.getElem?_eq_getElem hlt
    obtain ⟨cd, hc, hp, hrow⟩ := hm.children_onRow hn hl i _ hget
    rw [hget, Option.any_some, decide_eq_true_eq, nameOf_eq hc] at hi
    refine ⟨i, l[i], cd, by rw [Option.bind_some, hget]; rfl, ⟨cd, hc, hp, hi, ?_⟩, hc, hrow, hget⟩
    intro k kd hk hkp hkname
    obtain ⟨hmem, hname⟩ := (child_iff hm hn hl name k).mp ⟨kd, hk, hkp, hkname⟩
    obtain ⟨j, hj⟩ := List.getElem?_of_mem hmem
    obtain ⟨kd', hk', -, hjrow⟩ := hm.children_onRow hn hl j k hj
    obtain rfl := Option.some.inj (hk.symm.trans hk')
    rw [hrow, hjrow]
    by_contra hlt'
    have hnot := hbefore j (by omega)
    simp [hj, hname] at hnot

end

theorem findNodeItem_spec (hm : WellFormed m) (names : List QString) (hne : names ≠ []) {p : Nat}
    {pd : NetDirNode} (hp : m.nodes p = some pd) :
    ∃ gone left n nd row, names = gone ++ left ∧ Leads (FirstChild m) p gone n ∧
      m.nodes n = some nd ∧ m.findNodeItemByPathElements p names = some ⟨row, 0, some n⟩ ∧
      ((left = [] ∧ row = nd.onRow) ∨
        ∃ name rest, left = name :: rest ∧ row = 0 ∧ ∀ c, ¬ Child m n name c) := by
  induction names generalizing p pd with
  | nil => exact absurd rfl hne
  | cons name rest ih =>
    obtain ⟨l, hl, -⟩ := hm.children p pd hp
    rw [Model.findNodeItemByPathElements]
    simp only [hp, Option.bind_eq_bind, Option.bind_some]
    rcases findRow_spec hm hp hl name with ⟨i, c, cd, hfind, hfirst, hc, hrow, -⟩ | ⟨hfind, hnone⟩
    · simp only [hfind, Option.bind_some]
      by_cases hrest : rest = []
      · refine ⟨[name], [], c, cd, i, by simp [hrest], ⟨c, hfirst, rfl⟩, hc, by simp [hrest], ?_⟩
        exact Or.inl ⟨rfl, hrow.symm⟩
      · obtain ⟨gone, left, n, nd, row, heq, hlead, hn, hlook, hend⟩ := ih hrest hc
        refine ⟨name :: gone, left, n, nd, row, by rw [heq]; rfl, ⟨c, hfirst, hlead⟩, hn, ?_, hend⟩
        rw [if_neg hrest, hlook]
    · simp only [hfind, Option.bind_some]
      exact ⟨[], name :: rest, p, pd, 0, rfl, rfl, hp, rfl, Or.inr ⟨name, rest, rfl, rfl, hnone⟩⟩

/-! ## A path that is shown leads back -/

/-- What is used of `QDir(path).absolutePath()`: it depends on the names in the path only, a path
without a slash before it begins at the current directory, and names other than "." and ".." stay. -/
def Normalises (absolutePath : QString → QString) : Prop :=
  ∃ (cwd : List QString) (resolve : List QString → List QString),
    (∀ names, (∀ x ∈ names, x ≠ ['.'] ∧ x ≠ ['.', '.']) → resolve names = names) ∧
    ∀ path, path ≠ [] → components (absolutePath path) =
      resolve ((if path.head? = some '/' then [] else cwd) ++ components path)

/-- Two spellings of a path differ in repeated and trailing slashes. -/
def SamePath (path path' : QString) : Prop :=
  components path = components path' ∧ (path = [] ↔ path' = []) ∧
    (path.head? = some '/' ↔ path'.head? = some '/')

def DistinctSiblings (m : Model) : Prop :=
  ∀ p name c c', Child m p name c → Child m p name c' → c = c'

/-- The names below the root are names of directory entries. -/
def EntryNames (m : Model) : Prop :=
  ∀ n nd, m.nodes n = some nd → nd.pNode ≠ none → IsName nd.fileName

theorem indexPath_congr {absolutePath : QString → QString} (habs : Normalises absolutePath)
    {path path' : QString} (h : SamePath path path') :
    m.indexPath absolutePath path = m.indexPath absolutePath path' := by
  obtain ⟨hnames, hempty, hslash⟩ := h
  obtain ⟨cwd, resolve, -, hcomps⟩ := habs
  by_cases hp : path = []
  · rw [hp, hempty.mp hp]
  · have hp' := fun h => hp (hempty.mpr h)
    have hsame : components (absolutePath path) = components (absolutePath path') := by
      rw [hcomps path hp, hcomps path' hp', hnames]
      simp only [hslash]
    rw [Model.indexPath, Model.indexPath, if_neg hp, if_neg hp', hsame]

section

variable (hm : WellFormed m) (hfollow : PathsFollow m) (hempty : RootPathEmpty m)
  (hnames : EntryNames m)

include hm hfollow hempty hnames

theorem leads_fullPath {r : Nat} (hr : m.rootNode = some r) {n : Nat} {nd : NetDirNode}
    (hn : m.nodes n = some nd) :
    Leads (Child m) r (components nd.fullPath) n ∧ (∀ x ∈ components nd.fullPath, IsName x) ∧
      (n ≠ r → nd.fullPath.head? = some '/' ∧ components nd.fullPath ≠ []) := by
  induction n using Nat.strong_induction_on generalizing nd with
  | _ n ih =>
    rcases hm.parent n nd hn with ⟨-, hroot⟩ | ⟨p, pd, -, hp, hlt, hpd, -⟩
    · obtain rfl := Option.some.inj (hr.symm.trans hroot)
      rw [hempty r nd hr hn]
      exact ⟨rfl, by simp [components], fun h => absurd rfl h⟩
    · obtain ⟨hlead, hplain, hslash⟩ := ih p hlt hpd
      have hname := hnames n nd hn (by simp [hp])
      have hhead : (childPath pd.fullPath nd.fileName).head? = some '/' := by
        by_cases hpr : p = r
        · rw [hempty p pd (hpr ▸ hr) hpd]
          rfl
        · rw [childPath, List.head?_append, (hslash hpr).1]
          rfl
      rw [hfollow n nd p pd hn hp hpd, components_childPath _ _ hname]
      refine ⟨leads_append.mpr ⟨p, hlead, n, ⟨nd, hn, hp, rfl⟩, rfl⟩, ?_, fun _ => ⟨hhead, by simp⟩⟩
      intro x hx
      rcases List.mem_append.mp hx with hx | hx
      · exact hplain x hx
      · rw [List.mem_singleton.mp hx]
        exact hname

theorem indexPath_fullPath {absolutePath : QString → QString} (habs : Normalises absolutePath)
    (hdistinct : DistinctSiblings m) {n : Nat} {nd : NetDirNode} (hn : m.nodes n = some nd) :
    m.indexPath absolutePath nd.fullPath = some ⟨nd.onRow, 0, some n⟩ := by
  obtain ⟨r, rd, hr, hrd, -, hrow⟩ := hm.root
  obtain ⟨hlead, hplain, hslash⟩ := leads_fullPath hm hfollow hempty hnames hr hn
  by_cases hnr : n = r
  · subst hnr
    obtain rfl := Option.some.inj (hn.symm.trans hrd)
    rw [hempty n nd hr hn, Model.indexPath, if_pos rfl, hr, hrow]
  · obtain ⟨hhead, hne⟩ := hslash hnr
    have hpath : nd.fullPath ≠ [] := by
      intro h
      simp [h] at hhead
    have hcomps : components (absolutePath nd.fullPath) = components nd.fullPath := by
      obtain ⟨cwd, resolve, hstay, hcomps⟩ := habs
      rw [hcomps _ hpath, if_pos hhead, List.nil_append]
      exact hstay _ fun x hx => (hplain x hx).2.2
    obtain ⟨gone, left, k, kd, row, heq, hgone, hk, hlook, hend⟩ := findNodeItem_spec hm _ hne hrd
    rw [heq] at hlead
    obtain ⟨q, hq, hleft⟩ := leads_append.mp hlead
    obtain rfl := leads_unique hdistinct hq (leads_mono (fun _ _ _ h => h.child) hgone)
    rw [Model.indexPath, if_neg hpath, hcomps, hr, Option.bind_some, List.length_cons,
      if_neg (by simpa using hne), List.drop_one, List.tail_cons, hlook]
    rcases hend with ⟨rfl, rfl⟩ | ⟨name, rest, rfl, -, hnone⟩
    · obtain rfl : n = q := hleft
      obtain rfl := Option.some.inj (hn.symm.trans hk)
      rfl
    · obtain ⟨c, hc, -⟩ := hleft
      exact absurd hc (hnone c)

end

theorem indexOf_onRow (hm : WellFormed m) {n : Nat} {nd : NetDirNode} (hn : m.nodes n = some nd) :
    IndexOf m ⟨nd.onRow, 0, some n⟩ n := by
  rcases hm.parent n nd hn with ⟨-, hroot⟩ | ⟨p, pd, l, hp, -, hpd, hl, hmem⟩
  · obtain ⟨r, rd, hr, hrd, -, hrow⟩ := hm.root
    obtain rfl := Option.some.inj (hroot.symm.trans hr)
    obtain rfl := Option.some.inj (hn.symm.trans hrd)
    exact ⟨⟨⟨by simp [hrow], by simp⟩, rfl⟩, Or.inl ⟨hr, hrow⟩⟩
  · obtain ⟨i, hi⟩ := List.getElem?_of_mem hmem
    obtain ⟨nd', hn', -, hrow⟩ := hm.children_onRow hpd hl i n hi
    obtain rfl := Option.some.inj (hn.symm.trans hn')
    refine ⟨⟨⟨by simp [hrow], by simp⟩, rfl⟩, Or.inr ⟨p, pd, hpd, ?_⟩⟩
    rw [hrow, Int.toNat_natCast, children_childAt hl, hi]

/-- **Path lookup inverts path display**, in every tree whose names are those of directory entries,
and how often the slashes of a path are written does not count. -/
theorem lookup_inverts_display (absolutePath : QString → QString) (habs : Normalises absolutePath)
    (m : Model) (hm : WellFormed m) (hfollow : PathsFollow m) (hempty : RootPathEmpty m)
    (hnames : EntryNames m) (hdistinct : DistinctSiblings m) :
    (∀ n nd, m.nodes n = some nd → IndexOf m ⟨nd.onRow, 0, some n⟩ n ∧
      m.indexPath absolutePath nd.fullPath = some ⟨nd.onRow, 0, some n⟩) ∧
    ∀ path path', SamePath path path' →
      m.indexPath absolutePath path = m.indexPath absolutePath path' := by
  refine ⟨fun n nd hn => ⟨indexOf_onRow hm hn, ?_⟩, fun path path' h => indexPath_congr habs h⟩
  exact indexPath_fullPath hm hfollow hempty hnames habs hdistinct hn

/-! ## Small trees -/

/-- The names of the path, with one slash before each. -/
def oneSlash (path : QString) : QString :=
  if components path = [] then ['/'] else (components path).flatMap ('/' :: ·)

theorem components_flatMap {names : List QString} (h : ∀ x ∈ names, x ≠ [] ∧ '/' ∉ x) :
    components (names.flatMap ('/' :: ·)) = names := by
  induction names using List.reverseRecOn with
  | nil => rfl
  | append_singleton names x ih =>
    have hx := h x (by simp)
    have hlast : (names ++ [x]).flatMap ('/' :: ·) = names.flatMap ('/' :: ·) ++ '/' :: x := by simp
    have hnames := ih fun y hy => h y (by simp [hy])
    rw [components] at hnames
    rw [hlast, components, List.splitOn_append_cons_self, List.splitOn_eq_singleton hx.2,
      List.filter_append, hnames]
    simp [hx.1]

theorem normalises_oneSlash : Normalises oneSlash := by
  refine ⟨[], id, fun _ _ => rfl, fun path _ => ?_⟩
  rw [ite_self, List.nil_append, id, oneSlash]
  split
  · next hnone =>
    rw [hnone]
    decide
  · apply components_flatMap
    intro x hx
    obtain ⟨hmem, hne⟩ := List.mem_filter.mp hx
    exact ⟨by simpa using hne, slash_not_mem_of_mem_splitOn hmem⟩

section

variable {names : List QString} {flag : Nat → UInt8} (h : IsChain m names flag)

include h

theorem IsChain.le {n : Nat} {nd : NetDirNode} (hn : m.nodes n = some nd) : n ≤ names.length := by
  by_contra hgt
  rw [h.only n (by omega)] at hn
  cases hn

theorem IsChain.child {p c : Nat} {name : QString} (hc : Child m p name c) :
    c = p + 1 ∧ names[p]? = some name := by
  obtain ⟨cd, hcd, hpar, rfl⟩ := hc
  obtain ⟨nd, hnd, hname, -, hpar', -⟩ := h.node c (h.le hcd)
  obtain rfl := Option.some.inj (hcd.symm.trans hnd)
  rw [hpar] at hpar'
  split at hpar'
  · cases hpar'
  · obtain ⟨k, rfl⟩ := Nat.exists_eq_succ_of_ne_zero ‹c ≠ 0›
    obtain rfl : p = k := Option.some.inj hpar'
    exact ⟨rfl, by rwa [List.getElem?_cons_succ] at hname⟩

theorem IsChain.distinctSiblings : DistinctSiblings m := by
  intro p name c c' hc hc'
  rw [(h.child hc).1, (h.child hc').1]

theorem IsChain.entryNames (hnames : ∀ x ∈ names, IsName x) : EntryNames m := by
  intro n nd hn hpar
  obtain ⟨p, hp⟩ := Option.ne_none_iff_exists'.mp hpar
  exact hnames _ (List.mem_of_getElem? (h.child ⟨nd, hn, hp, rfl⟩).2)

theorem IsChain.fullPath {n : Nat} {nd : NetDirNode} (hn : m.nodes n = some nd) :
    nd.fullPath = pathOf names n := by
  obtain ⟨nd', hn', -, hpath, -⟩ := h.node n (h.le hn)
  obtain rfl := Option.some.inj (hn.symm.trans hn')
  exact hpath

theorem IsChain.pathsFollow : PathsFollow m := by
  intro n nd p pd hn hpar hp
  obtain ⟨rfl, hname⟩ := h.child ⟨nd, hn, hpar, rfl⟩
  rw [h.fullPath hn, h.fullPath hp, pathOf, List.take_add_one, hname]
  simp [childPath, pathOf]

theorem IsChain.rootPathEmpty : RootPathEmpty m := by
  intro r rd hr hrd
  obtain rfl := Option.some.inj (h.root.symm.trans hr)
  exact h.fullPath hrd

end

theorem lookup_inverts_display_home : ∃ m, Model.empty.setUserHomePath "/a/b".toList = some m ∧
    m.indexPath oneSlash "/a//b/".toList = some ⟨0, 0, some 2⟩ := by
  obtain ⟨m, h0, hm, hchain⟩ := setUserHomePath_chain (show "/a/b".toList.head? = some '/' from rfl)
  have hnames : homeNames "/a/b".toList = [['a'], ['b']] := by decide
  rw [hnames] at hchain
  obtain ⟨nd, hnd, -, hpath, -, hrow, -⟩ := hchain.node 2 (by decide)
  obtain ⟨hshown, hspelled⟩ := lookup_inverts_display oneSlash normalises_oneSlash m hm
    hchain.pathsFollow hchain.rootPathEmpty
    (hchain.entryNames (List.forall_mem_cons.mpr ⟨by decide, List.forall_mem_singleton.mpr (by decide)⟩))
    hchain.distinctSiblings
  refine ⟨m, h0, ?_⟩
  rw [hspelled "/a//b/".toList nd.fullPath (by rw [hpath]; exact ⟨by decide, by decide, by decide⟩),
    (hshown 2 nd hnd).2, hrow]

/-- The root and, below it, a directory whose name is the empty text. -/
def namelessTree : Model :=
  (homeRoot ['/'] 1).withHome 0 { ({ NetDirNode.new with onRow := 0 } : NetDirNode).copyFrom
    (Model.homeNode ['/'] 1 0 [] ['/']) with onRow := 0 } (Model.homeNode ['/'] 1 1 ['/'] [])

theorem namelessTree_wellFormed : WellFormed namelessTree := by
  have hroot : (homeRoot ['/'] 1).nodes 0 = some { ({ NetDirNode.new with
    onRow := 0 } : NetDirNode).copyFrom (Model.homeNode ['/'] 1 0 [] ['/']) with onRow := 0 } := rfl
  exact withHome_wellFormed (homeRoot_wellFormed _ _) hroot holds_empty _

theorem namelessTree_chain : IsChain namelessTree [[]] (homeFlag ['/'] 1) :=
  homeRoot_chain.withHome rfl []

theorem nameless_not_found : ∃ (absolutePath : QString → QString) (m : Model) (nd : NetDirNode),
    Normalises absolutePath ∧ WellFormed m ∧ PathsFollow m ∧ RootPathEmpty m ∧ DistinctSiblings m ∧
    (∀ n nd, m.nodes n = some nd → nd.pNode ≠ none →
      '/' ∉ nd.fileName ∧ nd.fileName ≠ ['.'] ∧ nd.fileName ≠ ['.', '.']) ∧
    m.rootNode = some 0 ∧ m.nodes 1 = some nd ∧
    m.indexPath absolutePath nd.fullPath = some ⟨0, 0, some 0⟩ := by
  -- A directory without a name is shown under the path of its parent and a slash, and that leads to
  -- the parent.
  have hchain := namelessTree_chain
  obtain ⟨nd, hnd, -, hpath, -⟩ := hchain.node 1 (by decide)
  refine ⟨oneSlash, namelessTree, nd, normalises_oneSlash, namelessTree_wellFormed,
    hchain.pathsFollow, hchain.rootPathEmpty, hchain.distinctSiblings, ?_, rfl, hnd, ?_⟩
  · intro n nd hn hpar
    obtain ⟨p, hp⟩ := Option.ne_none_iff_exists'.mp hpar
    have hname := List.mem_of_getElem? (hchain.child ⟨nd, hn, hp, rfl⟩).2
    rw [List.mem_singleton.mp hname]
    decide
  · rw [hpath]
    decide

end NullFxp.RemoteDirModel
