import NullFxp.RemoteDirModel.Lookup

/-!
# Looking up a path that is not in the tree

Where a name is missing, `index(path)` answers with the node it got to, and always in row 0. A view
takes the row of an index for the place of the node among its siblings.
-/

open Runs

namespace NullFxp.RemoteDirModel

variable {m : Model}

/-- The names that a lookup of the path goes along. -/
def pathNames (absolutePath : QString → QString) (path : QString) : List QString :=
  if path = [] then [] else components (absolutePath path)

/-- `n` is at the end of the names or, where nothing is there, at the longest part of them that
leads to a node. -/
def Deepest (m : Model) (r : Nat) (names : List QString) (n : Nat) : Prop :=
  ∃ gone, gone <+: names ∧ Leads (Child m) r gone n ∧
    ∀ longer, longer <+: names → gone.length < longer.length → ∀ k, ¬ Leads (Child m) r longer k

/-- The index that `index(path)` gives is that of the deepest node on the path. -/
def ValidLookup (absolutePath : QString → QString) (m : Model) (path : QString) : Prop :=
  ∃ r idx n, m.rootNode = some r ∧ m.indexPath absolutePath path = some idx ∧ IndexOf m idx n ∧
    Deepest m r (pathNames absolutePath path) n

/-- The trees in which the search for the names ends as it should. -/
structure Searchable (m : Model) (r : Nat) (names : List QString) : Prop where
  /-- No later row of the same name leads further than the first one does. -/
  first_rows : ∀ part, part <+: names → ∀ k, Leads (Child m) r part k →
    ∃ k', Leads (FirstChild m) r part k'
  /-- The node at which a name is missing is the first of its siblings. -/
  missing_row : ∀ gone name rest n nd, names = gone ++ name :: rest →
    Leads (FirstChild m) r gone n → m.nodes n = some nd → (∀ c, ¬ Child m n name c) → nd.onRow = 0

theorem leads_concat {R : Nat → QString → Nat → Prop} {p n : Nat} {l : List QString}
    {name : QString} : Leads R p (l ++ [name]) n ↔ ∃ q, Leads R p l q ∧ R q name n := by
  simp [leads_append, Leads]

theorem deepest_nil (m : Model) (r : Nat) : Deepest m r [] r := by
  refine ⟨[], List.prefix_rfl, rfl, ?_⟩
  intro longer hlonger hlt
  rw [List.prefix_nil.mp hlonger] at hlt
  cases hlt

theorem searchable_nil (m : Model) (r : Nat) : Searchable m r [] := by
  refine ⟨?_, ?_⟩
  · intro part hpart k _
    rw [List.prefix_nil.mp hpart]
    exact ⟨r, rfl⟩
  · intro gone name rest n nd heq
    simp at heq

section

variable (hm : WellFormed m)

include hm

theorem firstChild_unique (p : Nat) (name : QString) (c c' : Nat) (hc : FirstChild m p name c)
    (hc' : FirstChild m p name c') : c = c' := by
  obtain ⟨cd, hcd, hp, hname, hfirst⟩ := hc
  obtain ⟨cd', hcd', hp', hname', hfirst'⟩ := hc'
  rcases hm.parent c cd hcd with ⟨hnone, -⟩ | ⟨q, qd, l, hq, -, hqd, hl, hmem⟩
  · simp [hp] at hnone
  · obtain rfl := Option.some.inj (hp.symm.trans hq)
    have hmem' : c' ∈ l := (hm.mem_children hqd hl c').mpr ((par_eq hcd').trans hp')
    obtain ⟨i, hi⟩ := List.getElem?_of_mem hmem
    obtain ⟨j, hj⟩ := List.getElem?_of_mem hmem'
    obtain ⟨xd, hxd, -, hrow⟩ := hm.children_onRow hqd hl i c hi
    obtain ⟨yd, hyd, -, hrow'⟩ := hm.children_onRow hqd hl j c' hj
    obtain rfl := Option.some.inj (hcd.symm.trans hxd)
    obtain rfl := Option.some.inj (hcd'.symm.trans hyd)
    have hle := hfirst c' cd' hcd' hp' hname'
    have hle' := hfirst' c cd hcd hp hname
    obtain rfl : i = j := by omega
    exact Option.some.inj (hi.symm.trans hj)

theorem child_not_root {r p : Nat} {name : QString} (hr : m.rootNode = some r) :
    ¬ Child m p name r := by
  rintro ⟨cd, hcd, hp, -⟩
  obtain ⟨r', rd, hr', hrd, hnone, -⟩ := hm.root
  obtain rfl := Option.some.inj (hr.symm.trans hr')
  obtain rfl := Option.some.inj (hcd.symm.trans hrd)
  simp [hp] at hnone

theorem leads_names {r n : Nat} (hr : m.rootNode = some r) {l k : List QString}
    (hl : Leads (Child m) r l n) (hk : Leads (Child m) r k n) : l = k := by
  induction l using List.reverseRecOn generalizing n k with
  | nil =>
    obtain rfl : n = r := hl
    induction k using List.reverseRecOn with
    | nil => rfl
    | append_singleton k name _ =>
      obtain ⟨q, -, hq⟩ := leads_concat.mp hk
      exact absurd hq (child_not_root hm hr)
  | append_singleton l name ih =>
    obtain ⟨q, hq, cd, hcd, hp, hname⟩ := leads_concat.mp hl
    induction k using List.reverseRecOn with
    | nil =>
      obtain rfl : n = r := hk
      exact absurd ⟨cd, hcd, hp, hname⟩ (child_not_root hm hr)
    | append_singleton k name' _ =>
      obtain ⟨q', hq', cd', hcd', hp', hname'⟩ := leads_concat.mp hk
      obtain rfl := Option.some.inj (hcd.symm.trans hcd')
      obtain rfl := Option.some.inj (hp.symm.trans hp')
      rw [ih hq hq', hname.symm.trans hname']

theorem not_leads_longer {r n : Nat} {gone rest part : List QString} {name : QString}
    (hgone : Leads (FirstChild m) r gone n) (hnone : ∀ c, ¬ Child m n name c)
    (hpart : part <+: gone ++ name :: rest) (hlen : gone.length < part.length) (k : Nat) :
    ¬ Leads (FirstChild m) r part k := by
  intro hk
  have hnext : gone ++ [name] <+: part := by
    apply List.prefix_of_prefix_length_le _ hpart
    · rw [List.length_append, List.length_singleton]
      exact hlen
    · exact ⟨rest, by simp⟩
  obtain ⟨more, rfl⟩ := hnext
  obtain ⟨q, hq, -⟩ := leads_append.mp hk
  obtain ⟨n', hn', hchild⟩ := leads_concat.mp hq
  obtain rfl := leads_unique (firstChild_unique hm) hgone hn'
  exact hnone q hchild.child

theorem ends_at_missing {r n n' : Nat} {gone left gone' rest : List QString} {name : QString}
    (hgone : Leads (FirstChild m) r gone n) (hgone' : Leads (FirstChild m) r gone' n')
    (heq : gone ++ left = gone' ++ name :: rest) (hnone : ∀ c, ¬ Child m n' name c)
    (hlast : ∀ longer, longer <+: gone ++ left → gone.length < longer.length →
      ∀ k, ¬ Leads (Child m) r longer k) :
    gone = gone' ∧ left = name :: rest ∧ n = n' := by
  have hle : gone'.length ≤ gone.length := by
    by_contra hlt
    have hpre : gone' <+: gone ++ left := ⟨name :: rest, heq.symm⟩
    exact hlast gone' hpre (by omega) n' (leads_mono (fun _ _ _ h => h.child) hgone')
  have hge : gone.length ≤ gone'.length := by
    by_contra hlt
    have hpre : gone <+: gone' ++ name :: rest := ⟨left, heq⟩
    exact not_leads_longer hm hgone' hnone hpre (by omega) n hgone
  obtain ⟨rfl, rfl⟩ := List.append_inj heq (by omega)
  exact ⟨rfl, rfl, leads_unique (firstChild_unique hm) hgone hgone'⟩

theorem search_iff {r : Nat} (hr : m.rootNode = some r) {names : List QString} (hne : names ≠ []) :
    (∃ idx n, m.findNodeItemByPathElements r names = some idx ∧ IndexOf m idx n ∧
      Deepest m r names n) ↔ Searchable m r names := by
  obtain ⟨r', rd, hr', hrd, -⟩ := hm.root
  obtain rfl := Option.some.inj (hr.symm.trans hr')
  obtain ⟨gone, left, n, nd, row, rfl, hgone, hn, hlook, hend⟩ := findNodeItem_spec hm _ hne hrd
  have hchild : Leads (Child m) r gone n := leads_mono (fun _ _ _ h => h.child) hgone
  have hpre : gone <+: gone ++ left := List.prefix_append ..
  constructor
  · rintro ⟨idx, n', hidx, hof, deep, -, hdeep, hlast⟩
    obtain rfl := Option.some.inj (hlook.symm.trans hidx)
    obtain rfl : n = n' := Option.some.inj hof.1.2
    obtain rfl := leads_names hm hr hchild hdeep
    refine ⟨?_, ?_⟩
    · intro part hpart k hk
      have hle : part.length ≤ gone.length := by
        by_contra hlt
        exact hlast part hpart (by omega) k hk
      obtain ⟨more, rfl⟩ := List.prefix_of_prefix_length_le hpart hpre hle
      obtain ⟨q, hq, -⟩ := leads_append.mp hgone
      exact ⟨q, hq⟩
    · intro gone' name rest n' nd' heq hgone' hn' hnone
      obtain ⟨rfl, rfl, rfl⟩ := ends_at_missing hm hgone hgone' heq hnone hlast
      obtain rfl := Option.some.inj (hn.symm.trans hn')
      rcases hend with ⟨hnil, -⟩ | ⟨-, -, -, rfl, -⟩
      · cases hnil
      · exact indexOf_row hm hof hn
  · intro hs
    rcases hend with ⟨rfl, rfl⟩ | ⟨name, rest, rfl, rfl, hnone⟩
    · refine ⟨_, n, hlook, indexOf_onRow hm hn, gone, hpre, hchild, ?_⟩
      intro longer hlonger hlt
      have := hlonger.length_le
      rw [List.append_nil] at this
      omega
    · have hrow := indexOf_onRow hm hn
      rw [hs.missing_row gone name rest n nd rfl hgone hn hnone] at hrow
      refine ⟨_, n, hlook, hrow, gone, hpre, hchild, ?_⟩
      intro longer hlonger hlt k hk
      obtain ⟨k', hk'⟩ := hs.first_rows longer hlonger k hk
      exact not_leads_longer hm hgone hnone hlonger hlt k' hk'

theorem search_root_iff {r : Nat} (hr : m.rootNode = some r) :
    (∃ idx n, m.findNodeItemByPathElements r [['/']] = some idx ∧ IndexOf m idx n ∧
      Deepest m r [] n) ↔ ∀ c, ¬ Child m r ['/'] c := by
  obtain ⟨r', rd, hr', hrd, -, hrow⟩ := hm.root
  obtain rfl := Option.some.inj (hr.symm.trans hr')
  obtain ⟨gone, left, n, nd, row, heq, hgone, hn, hlook, hend⟩ :=
    findNodeItem_spec hm [['/']] (by simp) hrd
  rw [hlook]
  rcases hend with ⟨rfl, rfl⟩ | ⟨name, rest, rfl, rfl, hnone⟩
  · obtain rfl : gone = [['/']] := by simpa using heq.symm
    obtain ⟨c, hc, rfl⟩ := hgone
    constructor
    · rintro ⟨idx, n', hidx, hof, deep, hdeep, hlead, -⟩
      obtain rfl := Option.some.inj hidx
      obtain rfl : n = n' := Option.some.inj hof.1.2
      rw [List.prefix_nil.mp hdeep] at hlead
      obtain rfl : n = r := hlead
      exact absurd hc.child (child_not_root hm hr)
    · intro h
      exact absurd hc.child (h n)
  · obtain ⟨rfl, hcons⟩ : gone = [] ∧ name :: rest = [['/']] := by
      cases gone with
      | nil => exact ⟨rfl, heq.symm⟩
      | cons x gone =>
        have := congrArg List.length heq
        simp at this
    obtain ⟨rfl, rfl⟩ : name = ['/'] ∧ rest = [] := by simpa using hcons
    obtain rfl : n = r := hgone
    have hof := indexOf_onRow hm hrd
    rw [hrow] at hof
    exact ⟨fun _ => hnone, fun _ => ⟨_, n, rfl, hof, deepest_nil m n⟩⟩

end

theorem validLookup_iff_search {r : Nat} (hr : m.rootNode = some r)
    (absolutePath : QString → QString) {path : QString} (hpath : path ≠ []) {names : List QString}
    (hnames : pathNames absolutePath path = names) :
    ValidLookup absolutePath m path ↔
      ∃ idx n, m.findNodeItemByPathElements r (if names = [] then [['/']] else names) = some idx ∧
        IndexOf m idx n ∧ Deepest m r names n := by
  have hlook : m.indexPath absolutePath path =
      m.findNodeItemByPathElements r (if names = [] then [['/']] else names) := by
    rw [pathNames, if_neg hpath] at hnames
    rw [Model.indexPath, if_neg hpath, hnames, hr, Option.bind_some]
    cases names <;> rfl
  rw [ValidLookup, hlook, hnames]
  constructor
  · rintro ⟨r', idx, n, hr', hrest⟩
    obtain rfl := Option.some.inj (hr.symm.trans hr')
    exact ⟨idx, n, hrest⟩
  · rintro ⟨idx, n, hrest⟩
    exact ⟨r, idx, n, hr, hrest⟩

/-- **When a lookup gives a valid index**: "/" is no name below the root where the root is looked
up, and the names of the path are searchable. -/
theorem lookup_valid_iff (absolutePath : QString → QString) (m : Model) (hm : WellFormed m)
    (path : QString) :
    ValidLookup absolutePath m path ↔ ∀ r, m.rootNode = some r →
      (path ≠ [] → pathNames absolutePath path = [] → ∀ c, ¬ Child m r ['/'] c) ∧
      Searchable m r (pathNames absolutePath path) := by
  obtain ⟨r, rd, hr, hrd, -, hrow⟩ := hm.root
  have hroots : ∀ P : Nat → Prop, (∀ r, m.rootNode = some r → P r) ↔ P r := by
    intro P
    simp [hr]
  rw [hroots]
  by_cases hpath : path = []
  · have hof := indexOf_onRow hm hrd
    rw [hrow] at hof
    have hnames : pathNames absolutePath path = [] := if_pos hpath
    rw [ValidLookup, hnames, Model.indexPath, if_pos hpath, hr]
    exact ⟨fun _ => ⟨fun h => absurd hpath h, searchable_nil m r⟩,
      fun _ => ⟨r, _, r, rfl, rfl, hof, deepest_nil m r⟩⟩
  · rw [validLookup_iff_search hr absolutePath hpath rfl]
    by_cases hnames : pathNames absolutePath path = []
    · rw [if_pos hnames, hnames, search_root_iff hm hr]
      exact ⟨fun h => ⟨fun _ _ => h, searchable_nil m r⟩, fun h => h.1 hpath rfl⟩
    · rw [if_neg hnames, search_iff hm hr hnames]
      exact ⟨fun h => ⟨fun _ hnil => absurd hnil hnames, h⟩, fun h => h.2⟩

/-! ## Small trees -/

section

variable {names : List QString} {flag : Nat → UInt8} (h : IsChain m names flag)

include h

theorem IsChain.onRow {n : Nat} {nd : NetDirNode} (hn : m.nodes n = some nd) : nd.onRow = 0 := by
  obtain ⟨nd', hn', -, -, -, hrow, -⟩ := h.node n (h.le hn)
  obtain rfl := Option.some.inj (hn.symm.trans hn')
  exact hrow

theorem IsChain.searchable (r : Nat) (path : List QString) : Searchable m r path := by
  refine ⟨?_, fun _ _ _ _ _ _ _ hn _ => h.onRow hn⟩
  intro part _ k hk
  refine ⟨k, leads_mono ?_ hk⟩
  rintro p name c ⟨cd, hcd, hp, hname⟩
  refine ⟨cd, hcd, hp, hname, ?_⟩
  intro c' cd' hcd' _ _
  simp [h.onRow hcd, h.onRow hcd']

end

theorem lookup_valid_home : ∃ m, Model.empty.setUserHomePath "/a/b".toList = some m ∧
    ValidLookup oneSlash m "/a/x".toList := by
  obtain ⟨m, h0, hm, hchain⟩ := setUserHomePath_chain (show "/a/b".toList.head? = some '/' from rfl)
  refine ⟨m, h0, (lookup_valid_iff oneSlash m hm "/a/x".toList).mpr ?_⟩
  intro r _
  refine ⟨fun _ hnil => absurd hnil (by decide), hchain.searchable r _⟩

theorem missing_path_row : ∃ m₀ m, Model.empty.setUserHomePath ['/'] = some m₀ ∧
    run opStep m₀ [.retrived 0 [smallDir ['a'], smallDir ['b']]] = some m ∧ WellFormed m ∧
    ¬ ValidLookup oneSlash m "/b/c".toList := by
  -- Two directories `/a` and `/b`. The lookup of `/b/c` gives `/b`, in the row of `/a`.
  have hrun : ((Model.empty.setUserHomePath ['/']).bind fun m₀ =>
      (run opStep m₀ [.retrived 0 [smallDir ['a'], smallDir ['b']]]).bind fun m =>
        (m.indexPath oneSlash "/b/c".toList).bind fun idx => (m.nodes 2).map fun nd =>
          (idx, nd.onRow)) = some (⟨0, 0, some 2⟩, 1) := by decide
  obtain ⟨m₀, h0, hrun⟩ := Option.bind_eq_some_iff.mp hrun
  obtain ⟨m, hr, hrun⟩ := Option.bind_eq_some_iff.mp hrun
  obtain ⟨idx, hidx, hrun⟩ := Option.bind_eq_some_iff.mp hrun
  obtain ⟨nd, hnd, hpair⟩ := Option.map_eq_some_iff.mp hrun
  obtain ⟨rfl, hrow⟩ := Prod.mk.inj hpair
  have hm := run_wellFormed h0 hr
  refine ⟨m₀, m, h0, hr, hm, ?_⟩
  rintro ⟨r, idx, n, -, hidx', hof, -⟩
  obtain rfl := Option.some.inj (hidx.symm.trans hidx')
  obtain rfl : 2 = n := Option.some.inj hof.1.2
  have hzero := indexOf_row hm hof hnd
  rw [hrow] at hzero
  cases hzero

end NullFxp.RemoteDirModel
