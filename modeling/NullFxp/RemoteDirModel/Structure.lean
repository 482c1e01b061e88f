import NullFxp.Lib.Forest
import NullFxp.RemoteDirModel.Edit

/-!
# The structural invariant of the tree

`WellFormed m` says that every node of the heap hangs in the tree once, in the row that
it thinks it is in. The operations keep it. A row number is a `short` and new rows are
checked to be 0 or more, so that no directory has more than 32768 of them.
-/

open Forest RowMap

namespace NullFxp.RemoteDirModel

/-- The parent pointer of a node. -/
def par (m : Model) (c : Nat) : Option Nat := (m.nodes c).bind fun nd => nd.pNode

/-- The children of a node `nd` are `l`, in row order: no row is missing, none is null. -/
def Children (nd : NetDirNode) (l : List Nat) : Prop := Holds nd.childNodes (l.map some)

/-- Row `i` of node `n` is `c`, and `c` knows it. -/
def OnRow (m : Model) (n : Nat) (i : Nat) (c : Nat) : Prop :=
  ∃ cd, m.nodes c = some cd ∧ cd.pNode = some n ∧ cd.onRow = i

structure WellFormed (m : Model) : Prop where
  root : ∃ r rd, m.rootNode = some r ∧ m.nodes r = some rd ∧ rd.pNode = none ∧ rd.onRow = 0
  fresh : ∀ n nd, m.nodes n = some nd → n < m.next
  children : ∀ n nd, m.nodes n = some nd → ∃ l, Children nd l ∧ l.Nodup ∧ l.length ≤ 32768 ∧
    ∀ i c, l[i]? = some c → OnRow m n i c
  parent : ∀ c cd, m.nodes c = some cd →
    (cd.pNode = none ∧ m.rootNode = some c) ∨
    ∃ n nd l, cd.pNode = some n ∧ n < c ∧ m.nodes n = some nd ∧ Children nd l ∧ c ∈ l

/-! ## Reading the invariant -/

theorem children_unique {nd : NetDirNode} {l l' : List Nat} (h : Children nd l)
    (h' : Children nd l') : l = l' :=
  List.map_injective_iff.mpr (fun _ _ => Option.some.inj) (holds_unique h h')

theorem children_count {nd : NetDirNode} {l : List Nat} (h : Children nd l) :
    nd.childNodes.count = l.length := by
  simpa using holds_count h

theorem children_lookup {nd : NetDirNode} {l : List Nat} (h : Children nd l) (i : Nat) :
    nd.childNodes.lookup i = l[i]?.map some := by
  rw [h i, List.getElem?_map]

theorem children_childAt {nd : NetDirNode} {l : List Nat} (h : Children nd l) (i : Nat) :
    nd.childAt i = l[i]? := by
  rw [NetDirNode.childAt, children_lookup h]
  cases l[i]? <;> rfl

theorem par_eq {m : Model} {c : Nat} {cd : NetDirNode} (h : m.nodes c = some cd) :
    par m c = cd.pNode := by
  simp [par, h]

theorem par_some {m : Model} {c n : Nat} (h : par m c = some n) :
    ∃ cd, m.nodes c = some cd ∧ cd.pNode = some n := by
  simpa [par, Option.bind_eq_some_iff] using h

namespace WellFormed

variable {m : Model} (hm : WellFormed m)

include hm

theorem par_lt (c n : Nat) (h : par m c = some n) : n < c := by
  obtain ⟨cd, hc, hp⟩ := par_some h
  rcases hm.parent c cd hc with ⟨hn, -⟩ | ⟨k, -, -, hk, hlt, -⟩
  · simp [hp] at hn
  · rw [hp] at hk
    rwa [Option.some.inj hk]

theorem mem_children {n : Nat} {nd : NetDirNode} {l : List Nat} (hn : m.nodes n = some nd)
    (hl : Children nd l) (c : Nat) : c ∈ l ↔ par m c = some n := by
  constructor
  · intro hc
    obtain ⟨i, hi⟩ := List.getElem?_of_mem hc
    obtain ⟨l', hl', -, -, hrow⟩ := hm.children n nd hn
    obtain rfl := children_unique hl hl'
    obtain ⟨cd, hcd, hp, -⟩ := hrow i c hi
    rw [par_eq hcd, hp]
  · intro hp
    obtain ⟨cd, hcd, hp⟩ := par_some hp
    rcases hm.parent c cd hcd with ⟨hnone, -⟩ | ⟨k, kd, l', hk, -, hkd, hl', hc⟩
    · simp [hp] at hnone
    · rw [hp] at hk
      obtain rfl := Option.some.inj hk
      rw [hn] at hkd
      obtain rfl := Option.some.inj hkd
      rwa [children_unique hl hl']

theorem children_nodup {n : Nat} {nd : NetDirNode} {l : List Nat} (hn : m.nodes n = some nd)
    (hl : Children nd l) : l.Nodup := by
  obtain ⟨l', hl', hnd, -⟩ := hm.children n nd hn
  rwa [children_unique hl hl']

theorem children_length {n : Nat} {nd : NetDirNode} {l : List Nat} (hn : m.nodes n = some nd)
    (hl : Children nd l) : l.length ≤ 32768 := by
  obtain ⟨l', hl', -, hlen, -⟩ := hm.children n nd hn
  rwa [children_unique hl hl']

theorem row_inj {n : Nat} {nd : NetDirNode} {l : List Nat} (hn : m.nodes n = some nd)
    (hl : Children nd l) {i j c : Nat} (hi : l[i]? = some c) (hj : l[j]? = some c) : i = j := by
  obtain ⟨hil, hic⟩ := List.getElem?_eq_some_iff.mp hi
  obtain ⟨hjl, hjc⟩ := List.getElem?_eq_some_iff.mp hj
  exact (hm.children_nodup hn hl).getElem_inj_iff.mp (hic.trans hjc.symm)

theorem children_onRow {n : Nat} {nd : NetDirNode} {l : List Nat} (hn : m.nodes n = some nd)
    (hl : Children nd l) (i : Nat) (c : Nat) (hc : l[i]? = some c) : OnRow m n i c := by
  obtain ⟨l', hl', -, -, hrow⟩ := hm.children n nd hn
  obtain rfl := children_unique hl hl'
  exact hrow i c hc

theorem child_lt {n : Nat} {nd : NetDirNode} {l : List Nat} (hn : m.nodes n = some nd)
    (hl : Children nd l) {c : Nat} (hc : c ∈ l) : n < c :=
  hm.par_lt c n ((hm.mem_children hn hl c).mp hc)

theorem not_mem_children_self {n : Nat} {nd : NetDirNode} {l : List Nat}
    (hn : m.nodes n = some nd) (hl : Children nd l) : n ∉ l :=
  fun h => lt_irrefl n (hm.child_lt hn hl h)

end WellFormed

/-! ## Deleting a subtree -/

section Destroy

variable {m : Model} (hm : WellFormed m)

/-- What `delete n` does to a heap that agrees with the tree `m` below `n`. -/
def Destroyed (m : Model) (nodes nodes' : Nat → Option NetDirNode) (n : Nat) : Prop :=
  (∀ x, Below (par m) x n → nodes' x = none) ∧ ∀ x, ¬ Below (par m) x n → nodes' x = nodes x

include hm

theorem destroy_rows (fuel : Nat) {n : Nat} {nd : NetDirNode} {l : List Nat}
    (hn : m.nodes n = some nd) (hl : Children nd l)
    (ih : ∀ nodes c, m.nodes c ≠ none → m.next ≤ c + fuel →
      (∀ x, Below (par m) x c → nodes x = m.nodes x) →
      ∃ nodes', Model.destroy fuel nodes c = some nodes' ∧ Destroyed m nodes nodes' c)
    (hfuel : m.next ≤ n + (fuel + 1))
    (rows : List Nat) (hrows : rows.Nodup) (hlt : ∀ i ∈ rows, i < l.length)
    (nodes : Nat → Option NetDirNode)
    (hag : ∀ i ∈ rows, ∀ c, l[i]? = some c → ∀ x, Below (par m) x c → nodes x = m.nodes x) :
    ∃ nodes', rows.foldlM (fun nodes i => do
        let c ← nd.childNodes.lookup i
        c.elim (some nodes) (Model.destroy fuel nodes)) nodes = some nodes' ∧
      (∀ x, (∃ i ∈ rows, ∃ c, l[i]? = some c ∧ Below (par m) x c) → nodes' x = none) ∧
      ∀ x, (¬ ∃ i ∈ rows, ∃ c, l[i]? = some c ∧ Below (par m) x c) → nodes' x = nodes x := by
  induction rows generalizing nodes with
  | nil => exact ⟨nodes, rfl, by simp, by simp⟩
  | cons i rows ihr =>
    obtain ⟨hi, hrows⟩ := List.nodup_cons.mp hrows
    have hil : i < l.length := hlt i (by simp)
    have hc : l[i]? = some l[i] := List.getElem?_eq_getElem hil
    have hmem : l[i] ∈ l := List.getElem_mem hil
    have hlive : m.nodes l[i] ≠ none := by
      obtain ⟨cd, hcd, -⟩ := hm.children_onRow hn hl i _ hc
      simp [hcd]
    have hlc := hm.child_lt hn hl hmem
    obtain ⟨nodes1, h1, hgone, hsame⟩ := ih nodes l[i] hlive (by omega) (hag i (by simp) _ hc)
    -- The other rows are not below row `i`.
    have hag1 : ∀ k ∈ rows, ∀ c, l[k]? = some c → ∀ x, Below (par m) x c → nodes1 x = m.nodes x := by
      intro k hk c hkc x hx
      rw [hsame x, hag k (List.mem_cons_of_mem _ hk) c hkc x hx]
      intro hx'
      have := below_siblings hm.par_lt ((hm.mem_children hn hl _).mp hmem)
        ((hm.mem_children hn hl _).mp (List.mem_of_getElem? hkc)) hx' hx
      have hki : i = k := hm.row_inj hn hl (this ▸ hc) hkc
      exact hi (hki ▸ hk)
    obtain ⟨nodes2, h2, hgone2, hsame2⟩ :=
      ihr hrows (fun k hk => hlt k (List.mem_cons_of_mem _ hk)) nodes1 hag1
    refine ⟨nodes2, ?_, ?_, ?_⟩
    · rw [List.foldlM_cons, children_lookup hl, hc]
      simp only [Option.map_some, Option.bind_eq_bind, Option.bind_some, Option.elim_some, h1]
      exact h2
    · rintro x ⟨k, hk, c, hkc, hx⟩
      by_cases hrest : ∃ k ∈ rows, ∃ c, l[k]? = some c ∧ Below (par m) x c
      · exact hgone2 x hrest
      · rw [hsame2 x hrest]
        rcases List.mem_cons.mp hk with rfl | hk
        · rw [hc] at hkc
          exact hgone x (Option.some.inj hkc ▸ hx)
        · exact absurd ⟨k, hk, c, hkc, hx⟩ hrest
    · intro x hx
      rw [hsame2 x (fun ⟨k, hk, c, hkc, h⟩ => hx ⟨k, List.mem_cons_of_mem _ hk, c, hkc, h⟩),
        hsame x (fun h => hx ⟨i, by simp, l[i], hc, h⟩)]

theorem destroy_spec (fuel : Nat) (nodes : Nat → Option NetDirNode) (n : Nat)
    (hn : m.nodes n ≠ none) (hfuel : m.next ≤ n + fuel)
    (hag : ∀ x, Below (par m) x n → nodes x = m.nodes x) :
    ∃ nodes', Model.destroy fuel nodes n = some nodes' ∧ Destroyed m nodes nodes' n := by
  induction fuel generalizing nodes n with
  | zero =>
    obtain ⟨nd, hnd⟩ := Option.ne_none_iff_exists'.mp hn
    have := hm.fresh n nd hnd
    omega
  | succ fuel ih =>
    obtain ⟨nd, hnd⟩ := Option.ne_none_iff_exists'.mp hn
    obtain ⟨l, hl, -⟩ := hm.children n nd hnd
    have hrows : ∀ i ∈ (List.range nd.childNodes.count).reverse, i < l.length := by
      intro i hi
      rw [children_count hl] at hi
      simpa using hi
    obtain ⟨nodes1, h1, hgone, hsame⟩ :=
      destroy_rows hm fuel hnd hl (fun nodes c hc hf h => ih nodes c hc hf h) hfuel
        (List.range nd.childNodes.count).reverse (List.nodup_reverse.mpr List.nodup_range) hrows nodes
        (fun i _ c hic x hx => hag x (below_child hx
          ((hm.mem_children hnd hl c).mp (List.mem_of_getElem? hic))))
    refine ⟨Function.update nodes1 n none, ?_, ?_, ?_⟩
    · rw [Model.destroy, hag n (below_refl n), hnd]
      simp only [Option.bind_eq_bind, Option.bind_some]
      simp only [Option.bind_eq_bind] at h1
      rw [h1]
      rfl
    · intro x hx
      rcases eq_or_ne x n with rfl | hxn
      · simp
      rw [Function.update_of_ne hxn]
      rcases below_cases hx with rfl | ⟨c, hc, hxc⟩
      · exact absurd rfl hxn
      · obtain ⟨i, hi⟩ := List.getElem?_of_mem ((hm.mem_children hnd hl c).mpr hc)
        refine hgone x ⟨i, ?_, c, hi, hxc⟩
        have := (List.getElem?_eq_some_iff.mp hi).1
        simpa [children_count hl] using this
    · intro x hx
      have hxn : x ≠ n := fun h => hx (by rw [h]; exact below_refl n)
      rw [Function.update_of_ne hxn, hsame x]
      rintro ⟨i, -, c, hic, hxc⟩
      exact hx (below_child hxc ((hm.mem_children hnd hl c).mp (List.mem_of_getElem? hic)))

end Destroy

end NullFxp.RemoteDirModel
