import NullFxp.Lib.Assoc
import NullFxp.Lib.Worklist
import NullFxp.Transportor.Queue

/-!
# Source trees

What there is to copy, and which pair of paths each part of it has in the queue.
-/

open scoped List

namespace NullFxp.Transportor

inductive Tree where
  | file
  | special
  | dir (entries : List (QString × Tree))

namespace Tree

def lookup : Tree → List QString → Option Tree
  | t, [] => some t
  | .dir es, name :: path => (es.find? (·.1 = name)).bind fun e => e.2.lookup path
  | _, _ :: _ => none

/-- The entries of a directory have names, each its own. -/
def Named (t : Tree) : Prop :=
  ∀ path es, t.lookup path = some (.dir es) →
    (es.map Prod.fst).Nodup ∧ ∀ e ∈ es, IsName e.1

theorem induction {P : Tree → Prop} (file : P .file) (special : P .special)
    (dir : ∀ es : List (QString × Tree), (∀ e ∈ es, P e.2) → P (.dir es)) : ∀ t, P t
  | .file => file
  | .special => special
  | .dir es => dir es (entries es)
where
  entries : ∀ es : List (QString × Tree), ∀ e ∈ es, P e.2
    | [], _, he => absurd he List.not_mem_nil
    | (_, t) :: es, e, he => by
      rcases List.mem_cons.mp he with rfl | he
      · exact induction file special dir t
      · exact entries es e he

theorem lookup_append (t : Tree) (p q : List QString) :
    t.lookup (p ++ q) = (t.lookup p).bind (·.lookup q) := by
  induction p generalizing t with
  | nil => simp [lookup]
  | cons name p ih =>
    cases t with
    | file => simp [lookup]
    | special => simp [lookup]
    | dir es => simp only [List.cons_append, lookup, Option.bind_assoc, ih]

theorem Named.at {t u : Tree} (ht : t.Named) {p : List QString} (hp : t.lookup p = some u) :
    u.Named := by
  intro path es h
  refine ht (p ++ path) es ?_
  rw [lookup_append, hp, Option.bind_some, h]

theorem lookup_entry {es : List (QString × Tree)} (ht : Named (.dir es)) {e : QString × Tree}
    (he : e ∈ es) (path : List QString) :
    (Tree.dir es).lookup (e.1 :: path) = e.2.lookup path := by
  rw [lookup, Assoc.find_of_mem (ht [] es rfl).1 he, Option.bind_some]

theorem Named.entry {es : List (QString × Tree)} (ht : Named (.dir es)) {e : QString × Tree}
    (he : e ∈ es) : e.2.Named := by
  refine ht.at (p := [e.1]) ?_
  rw [lookup_entry ht he, lookup]

theorem named_of_entries {es : List (QString × Tree)} (hnodup : (es.map Prod.fst).Nodup)
    (hname : ∀ e ∈ es, IsName e.1) (hes : ∀ e ∈ es, e.2.Named) : Named (.dir es) := by
  intro path es' h
  cases path with
  | nil =>
    obtain rfl : es = es' := by simpa [lookup] using h
    exact ⟨hnodup, hname⟩
  | cons name path =>
    obtain ⟨e, hfind, he⟩ := Option.bind_eq_some_iff.mp h
    exact hes e (List.mem_of_find?_eq_some hfind) path es' he

theorem named_file : Named .file := by
  intro path es h
  cases path <;> simp [lookup] at h

theorem Named.isName {t u : Tree} (ht : t.Named) {path : List QString}
    (h : t.lookup path = some u) : ∀ name ∈ path, IsName name := by
  induction path generalizing t with
  | nil => simp
  | cons name path ih =>
    cases t with
    | file => simp [lookup] at h
    | special => simp [lookup] at h
    | dir es =>
      obtain ⟨e, hfind, he⟩ := Option.bind_eq_some_iff.mp h
      have hmem := List.mem_of_find?_eq_some hfind
      have hname : e.1 = name := by simpa using List.find?_some hfind
      refine List.forall_mem_cons.mpr ⟨hname ▸ (ht [] es rfl).2 e hmem, ?_⟩
      exact ih (ht.entry hmem) he

end Tree

/-- `path` with the names in `rest` below it. -/
def joinPath (path : QString) (rest : List QString) : QString := rest.foldl childPath path

theorem components_joinPath (path : QString) (rest : List QString) (h : ∀ n ∈ rest, IsName n) :
    components (joinPath path rest) = components path ++ rest := by
  induction rest generalizing path with
  | nil => simp [joinPath]
  | cons n rest ih =>
    obtain ⟨hn, hrest⟩ := List.forall_mem_cons.mp h
    calc components (joinPath path (n :: rest))
      _ = components (childPath path n) ++ rest := ih (childPath path n) hrest
      _ = components path ++ n :: rest := by rw [components_childPath path n hn]; simp

/-! ## What is queued -/

/-- An entry of the source, and the directory that it goes to. -/
structure Item where
  src : QString
  dest : QString
  tree : Tree

namespace Item

def target (i : Item) : QString := childPath i.dest (lastPart i.src)

/-- What a directory adds to the queue. -/
def next (i : Item) : List Item :=
  match i.tree with
  | .dir es => es.map fun e => ⟨childPath i.src e.1, i.target, e.2⟩
  | _ => []

def calls (i : Item) : List Call :=
  .newFileStarted i.src i.dest ::
    match i.tree with
    | .file => [.copy i.src i.target]
    | .special => []
    | .dir _ => [.mkdir i.target]

end Item

mutual

/-- The entry at `src` and all that is below it. -/
def Tree.items (src dest : QString) : Tree → List Item
  | .file => [⟨src, dest, .file⟩]
  | .special => [⟨src, dest, .special⟩]
  | .dir es => ⟨src, dest, .dir es⟩ :: entryItems src (childPath dest (lastPart src)) es

def entryItems (src target : QString) : List (QString × Tree) → List Item
  | [] => []
  | (name, t) :: es => t.items (childPath src name) target ++ entryItems src target es

end

def Item.all (i : Item) : List Item := i.tree.items i.src i.dest

theorem entryItems_eq (src target : QString) (es : List (QString × Tree)) :
    entryItems src target es = es.flatMap fun e => e.2.items (childPath src e.1) target := by
  induction es with
  | nil => rfl
  | cons e es ih => rw [entryItems, ih, List.flatMap_cons]

theorem closed_all : Worklist.Closed Item.next Item.all := by
  rintro ⟨src, dest, t⟩
  cases t with
  | file => rfl
  | special => rfl
  | dir es =>
    simp only [Item.all, Tree.items, Item.next, Item.target, entryItems_eq, List.flatMap_map]

/-- The pair of paths of the entry at `r` below `src`. -/
def place (src dest : QString) : List QString → QString × QString
  | [] => (src, dest)
  | n :: r => place (childPath src n) (childPath dest (lastPart src)) r

theorem place_src (src dest : QString) (r : List QString) :
    (place src dest r).1 = joinPath src r := by
  induction r generalizing src dest with
  | nil => rfl
  | cons n r ih => exact ih (childPath src n) _

theorem place_target (src dest : QString) {r : List QString} (h : ∀ n ∈ r, IsName n) :
    childPath (place src dest r).2 (lastPart (place src dest r).1) =
      joinPath (childPath dest (lastPart src)) r := by
  induction r generalizing src dest with
  | nil => rfl
  | cons n r ih =>
    obtain ⟨hn, hr⟩ := List.forall_mem_cons.mp h
    rw [place, ih _ _ hr, lastPart_childPath src n hn.2.1]
    rfl

theorem place_dest (src dest : QString) {r : List QString} (h : ∀ n ∈ r, IsName n) (n : QString) :
    (place src dest (r ++ [n])).2 = joinPath (childPath dest (lastPart src)) r := by
  induction r generalizing src dest with
  | nil => rfl
  | cons m r ih =>
    obtain ⟨hm, hr⟩ := List.forall_mem_cons.mp h
    rw [List.cons_append, place, ih _ _ hr, lastPart_childPath src m hm.2.1]
    rfl

theorem mem_items {t : Tree} (ht : t.Named) (src dest : QString) (i : Item) :
    i ∈ t.items src dest ↔
      ∃ r, t.lookup r = some i.tree ∧ (i.src, i.dest) = place src dest r := by
  have leaf (u : Tree) (hu : ∀ n r, u.lookup (n :: r) = none) (src dest : QString) :
      i = ⟨src, dest, u⟩ ↔ ∃ r, u.lookup r = some i.tree ∧ (i.src, i.dest) = place src dest r := by
    constructor
    · rintro rfl
      exact ⟨[], by cases u <;> rfl, rfl⟩
    · rintro ⟨r, hr, hp⟩
      cases r with
      | nil =>
        obtain ⟨isrc, idest, it⟩ := i
        obtain rfl : u = it := by cases u <;> simpa [Tree.lookup] using hr
        obtain ⟨rfl, rfl⟩ := Prod.mk.inj hp
        rfl
      | cons n r => simp [hu] at hr
  induction t using Tree.induction generalizing src dest with
  | file => rw [Tree.items, List.mem_singleton]; exact leaf _ (fun _ _ => rfl) src dest
  | special => rw [Tree.items, List.mem_singleton]; exact leaf _ (fun _ _ => rfl) src dest
  | dir es ih =>
    rw [Tree.items, List.mem_cons, entryItems_eq, List.mem_flatMap]
    constructor
    · rintro (rfl | ⟨e, he, hi⟩)
      · exact ⟨[], rfl, rfl⟩
      · obtain ⟨r, hr, hp⟩ := (ih e he (ht.entry he) _ _).mp hi
        exact ⟨e.1 :: r, by rw [Tree.lookup_entry ht he, hr], hp⟩
    · rintro ⟨r, hr, hp⟩
      cases r with
      | nil =>
        obtain ⟨isrc, idest, it⟩ := i
        obtain rfl : Tree.dir es = it := by simpa [Tree.lookup] using hr
        obtain ⟨rfl, rfl⟩ := Prod.mk.inj hp
        exact .inl rfl
      | cons n r =>
        obtain ⟨e, hfind, he⟩ := Option.bind_eq_some_iff.mp hr
        have hmem := List.mem_of_find?_eq_some hfind
        obtain rfl : e.1 = n := by simpa using List.find?_some hfind
        exact .inr ⟨e, hmem, (ih e hmem (ht.entry hmem) _ _).mpr ⟨r, he, hp⟩⟩

/-! ## Every target is used once -/

def Item.targetPath (i : Item) : List QString := components i.target

theorem targetPath_of_mem {j i : Item} (hj : j.tree.Named) (hname : IsName (lastPart j.src))
    (hi : i ∈ j.all) : ∃ r, i.targetPath = components j.dest ++ lastPart j.src :: r := by
  obtain ⟨r, hr, hp⟩ := (mem_items hj j.src j.dest i).mp hi
  have hnames := hj.isName hr
  have htarget : i.target = joinPath (childPath j.dest (lastPart j.src)) r := by
    rw [← place_target j.src j.dest hnames, ← hp, Item.target]
  refine ⟨r, ?_⟩
  rw [Item.targetPath, htarget, components_joinPath _ _ hnames, components_childPath _ _ hname]
  simp

theorem nodup_flatMap_all {q : List Item} {d : QString} (hdest : ∀ i ∈ q, i.dest = d)
    (hnamed : ∀ i ∈ q, i.tree.Named) (hname : ∀ i ∈ q, IsName (lastPart i.src))
    (hdistinct : (q.map (lastPart ·.src)).Nodup)
    (heach : ∀ i ∈ q, (i.all.map Item.targetPath).Nodup) :
    ((q.flatMap Item.all).map Item.targetPath).Nodup := by
  induction q with
  | nil => simp
  | cons j q ih =>
    obtain ⟨hjd, hqd⟩ := List.forall_mem_cons.mp hdest
    obtain ⟨hjt, hqt⟩ := List.forall_mem_cons.mp hnamed
    obtain ⟨hjn, hqn⟩ := List.forall_mem_cons.mp hname
    obtain ⟨hje, hqe⟩ := List.forall_mem_cons.mp heach
    obtain ⟨hj, hq⟩ := List.nodup_cons.mp hdistinct
    rw [List.flatMap_cons, List.map_append, List.nodup_append]
    refine ⟨hje, ih hqd hqt hqn hq hqe, ?_⟩
    intro path hpath path' hpath' heq
    obtain ⟨i, hi, rfl⟩ := List.mem_map.mp hpath
    obtain ⟨i', hi', rfl⟩ := List.mem_map.mp hpath'
    obtain ⟨j', hj', hi'⟩ := List.mem_flatMap.mp hi'
    obtain ⟨r, hr⟩ := targetPath_of_mem hjt hjn hi
    obtain ⟨r', hr'⟩ := targetPath_of_mem (hqt j' hj') (hqn j' hj') hi'
    rw [hr, hr', hjd, hqd j' hj', List.append_cancel_left_eq, List.cons.injEq] at heq
    exact hj (List.mem_map.mpr ⟨j', hj', heq.1.symm⟩)

theorem nodup_all {i : Item} (hi : i.tree.Named) (hname : IsName (lastPart i.src)) :
    (i.all.map Item.targetPath).Nodup := by
  obtain ⟨src, dest, t⟩ := i
  induction t using Tree.induction generalizing src dest with
  | file => simp [Item.all, Tree.items]
  | special => simp [Item.all, Tree.items]
  | dir es ih =>
    have hes := hi [] es rfl
    have hlast : ∀ e ∈ es, lastPart (childPath src e.1) = e.1 :=
      fun e he => lastPart_childPath src e.1 (hes.2 e he).2.1
    rw [closed_all, List.map_cons, List.nodup_cons]
    constructor
    · -- A target below the directory is longer than the directory's own.
      intro hmem
      obtain ⟨i, hi', heq⟩ := List.mem_map.mp hmem
      obtain ⟨k, hk, hik⟩ := List.mem_flatMap.mp hi'
      obtain ⟨e, he, rfl⟩ := List.mem_map.mp hk
      obtain ⟨r, hr⟩ := targetPath_of_mem (hi.entry he) (by rw [hlast e he]; exact hes.2 e he) hik
      rw [heq, Item.targetPath] at hr
      have := congrArg List.length hr
      simp at this
    · apply nodup_flatMap_all (d := childPath dest (lastPart src))
      · exact List.forall_mem_map.mpr fun e _ => rfl
      · exact List.forall_mem_map.mpr fun e he => hi.entry he
      · exact List.forall_mem_map.mpr fun e he => by rw [hlast e he]; exact hes.2 e he
      · rw [Item.next, List.map_map]
        refine (List.map_congr_left ?_).symm ▸ hes.1
        exact fun e he => hlast e he
      · refine List.forall_mem_map.mpr fun e he => ?_
        exact ih e he _ _ (hi.entry he) (by rw [hlast e he]; exact hes.2 e he)

end NullFxp.Transportor
