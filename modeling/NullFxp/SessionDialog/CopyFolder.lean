import Mathlib.Data.List.Infix
import NullFxp.Lib.StackWalk
import NullFxp.SessionDialog.Tree

/-!
# Copying a folder

The folders that are still to be copied are on a stack, each under its place below the folder that is
copied. What is written can lie inside of what is still to be read, so the stack is worked off over a
tree that changes.
-/

open scoped List

namespace NullFxp.SessionDialog

open NullFxp.Sync (Loc Visible dot dotdot isHidden not_dot_of_isName)

section

variable (item dest : Loc)

/-- One entry of the folder `tname`, with what is pushed for it, the top first. -/
def copyEntry (tname : Loc) (s : Tree × List Loc) (name : QString) : Tree × List Loc :=
  if name = dot ∨ name = dotdot then s
  else if s.1.isDir (item ++ tname ++ [name]) then
    ((s.1.mkdir (dest ++ tname) name).2, (tname ++ [name]) :: s.2)
  else (s.1.copy (item ++ tname ++ [name]) (dest ++ tname) name, s.2)

/-- One round of the loop over `entries`. -/
def copyStep (t : Tree) (tname : Loc) : Tree × List Loc :=
  if t.isDir (item ++ tname) then
    (t.entryList (item ++ tname)).foldl (copyEntry item dest tname) (t, [])
  else
    (t.copy (item ++ tname) (dest ++ tname).dropLast ((dest ++ tname).getLastD []), [])

/-- The places that a folder can have below the one that is copied. -/
def ends (t : Tree) : List Loc := t.places.flatMap List.tails

/-- The loop. It starts with `"."`, which is the folder itself. -/
def copyLoop (t : Tree) : Option Tree :=
  StackWalk.run (copyStep item dest) (ends t).length t [[]]

/-! ## One round -/

/-- Each of these entries is at its place below `dest` when nothing was there and its folder is. -/
structure Copied (tname : Loc) (names : List QString) (t t' : Tree) : Prop where
  copied : ∀ name ∈ names, t'.node (dest ++ tname ++ [name]) =
    (t.node (dest ++ tname ++ [name])).or
      (if t.isDir (dest ++ tname) then t.node (item ++ tname ++ [name]) else none)
  others : ∀ k, (∀ name ∈ names, k ≠ dest ++ tname ++ [name]) → t'.node k = t.node k

end

variable {item dest tname : Loc} {name : QString} {names : List QString} {t t' t'' : Tree} {x : Node}

theorem Copied.kept (h : Copied item dest tname names t t') {k : Loc} (hk : t.node k = some x) :
    t'.node k = some x := by
  by_cases hto : ∃ name ∈ names, k = dest ++ tname ++ [name]
  · obtain ⟨name, hname, rfl⟩ := hto
    rw [h.copied name hname, hk, Option.some_or]
  · rw [h.others k (fun name hname heq => hto ⟨name, hname, heq⟩), hk]

theorem Copied.not_copied (h : Copied item dest tname names t t') (hname : name ∉ names) :
    t'.node (dest ++ tname ++ [name]) = t.node (dest ++ tname ++ [name]) := by
  apply h.others
  intro name' hname' heq
  obtain rfl : name = name' := by simpa using heq
  exact hname hname'

theorem Copied.isDir_dest (h : Copied item dest tname names t t') :
    t'.isDir (dest ++ tname) = t.isDir (dest ++ tname) := by
  unfold Tree.isDir
  rw [h.others _ (fun name _ => by simp)]

theorem copyEntry_eq {s : Tree × List Loc} (hx : s.1.node (item ++ tname ++ [name]) = some x) :
    copyEntry item dest tname s name =
      (s.1.create (dest ++ tname) name x, if x.isFolder then (tname ++ [name]) :: s.2 else s.2) := by
  obtain ⟨hdot, hdotdot⟩ := not_dot_of_isName (s.1.named _ _ x hx)
  unfold copyEntry
  rw [if_neg (by simp [hdot, hdotdot]), Tree.isDir_eq hx]
  cases x with
  | folder => rfl
  | session keys =>
    rw [Tree.copy, hx]
    rfl

theorem copied_create (hx : t.node (item ++ tname ++ [name]) = some x) :
    Copied item dest tname [name] t (t.create (dest ++ tname) name x) := by
  have hname := t.named _ _ x hx
  cases hto : t.node (dest ++ tname ++ [name]) with
  | some y =>
    rw [Tree.create_of_there hto]
    refine ⟨?_, fun k _ => rfl⟩
    intro name' hmem
    obtain rfl := List.mem_singleton.mp hmem
    rw [hto, Option.some_or]
  | none =>
    by_cases hdir : t.node (dest ++ tname) = some .folder
    · have hnode := Tree.node_create (x := x) hname hdir hto
      refine ⟨?_, ?_⟩
      · intro name' hmem
        obtain rfl := List.mem_singleton.mp hmem
        rw [hnode, if_pos rfl, hto, Option.none_or, if_pos (Tree.isDir_iff.mpr hdir), hx]
      · intro k hk
        rw [hnode, if_neg (hk name List.mem_cons_self)]
    · rw [Tree.create_of_not_folder hdir]
      refine ⟨?_, fun k _ => rfl⟩
      intro name' hmem
      obtain rfl := List.mem_singleton.mp hmem
      rw [hto, Option.none_or, if_neg (fun h => hdir (Tree.isDir_iff.mp h))]

theorem Copied.cons (h : Copied item dest tname [name] t t') (h' : Copied item dest tname names t' t'')
    (hnames : ∀ name' ∈ names, t.node (item ++ tname ++ [name']) ≠ none) :
    Copied item dest tname (name :: names) t t'' := by
  -- What is to be copied is there from the start, and so does not change on the way.
  have hsame : ∀ name' ∈ names, t'.node (item ++ tname ++ [name']) = t.node (item ++ tname ++ [name']) := by
    intro name' hmem
    obtain ⟨y, hy⟩ := Option.ne_none_iff_exists'.mp (hnames name' hmem)
    rw [hy, h.kept hy]
  refine ⟨?_, ?_⟩
  · intro name' hmem
    by_cases hlater : name' ∈ names
    · rw [h'.copied name' hlater, h.isDir_dest, hsame name' hlater]
      by_cases heq : name' = name
      · subst heq
        rw [h.copied name' List.mem_cons_self, Option.or_assoc, Option.or_self]
      · rw [h.others _ (by simpa using heq)]
    · obtain rfl : name' = name := (List.mem_cons.mp hmem).resolve_right hlater
      rw [h'.not_copied hlater, h.copied name' List.mem_cons_self]
  · intro k hk
    rw [h'.others k (fun name' hmem => hk name' (List.mem_cons_of_mem _ hmem)),
      h.others k (fun name' hmem => hk name' (List.mem_singleton.mp hmem ▸ List.mem_cons_self))]

theorem foldl_copyEntry (pushed : List Loc)
    (hnames : ∀ name ∈ names, t.node (item ++ tname ++ [name]) ≠ none) :
    Copied item dest tname names t (names.foldl (copyEntry item dest tname) (t, pushed)).1 ∧
      (names.foldl (copyEntry item dest tname) (t, pushed)).2 =
        ((names.filter fun name => t.isDir (item ++ tname ++ [name])).map (tname ++ [·])).reverse ++ pushed := by
  induction names generalizing t pushed with
  | nil => exact ⟨⟨by simp, fun k _ => rfl⟩, rfl⟩
  | cons name names ih =>
    obtain ⟨hname, hrest⟩ := List.forall_mem_cons.mp hnames
    obtain ⟨x, hx⟩ := Option.ne_none_iff_exists'.mp hname
    have hfirst : Copied item dest tname [name] t (t.create (dest ++ tname) name x) := copied_create hx
    have hkept : ∀ name' ∈ names, (t.create (dest ++ tname) name x).node (item ++ tname ++ [name']) =
        t.node (item ++ tname ++ [name']) := by
      intro name' hmem
      obtain ⟨y, hy⟩ := Option.ne_none_iff_exists'.mp (hrest name' hmem)
      rw [hy, hfirst.kept hy]
    rw [List.foldl_cons, copyEntry_eq (s := (t, pushed)) hx]
    obtain ⟨hcopied, hpushed⟩ := ih (if x.isFolder then (tname ++ [name]) :: pushed else pushed)
      (t := t.create (dest ++ tname) name x) (fun name' hmem => hkept name' hmem ▸ hrest name' hmem)
    refine ⟨hfirst.cons hcopied hrest, ?_⟩
    rw [hpushed]
    have hfilter : (names.filter fun name' =>
        (t.create (dest ++ tname) name x).isDir (item ++ tname ++ [name'])) =
        names.filter fun name' => t.isDir (item ++ tname ++ [name']) := by
      apply List.filter_congr
      intro name' hmem
      unfold Tree.isDir
      rw [hkept name' hmem]
    rw [hfilter, List.filter_cons, Tree.isDir_eq hx]
    cases x with
    | folder => simp [Node.isFolder]
    | session keys => simp [Node.isFolder]

/-- The entries of a folder that are listed. -/
def seen (t : Tree) (l : Loc) : List QString := (t.names l).filter fun name => !isHidden name

theorem mem_seen {l : Loc} :
    name ∈ seen t l ↔ t.node (l ++ [name]) ≠ none ∧ isHidden name = false := by
  rw [seen, List.mem_filter, Tree.mem_names, Bool.not_eq_true']

theorem copyStep_eq (h : t.isDir (item ++ tname) = true) :
    copyStep item dest t tname =
      (seen t (item ++ tname)).foldl (copyEntry item dest tname) (t, []) := by
  have hlist : t.entryList (item ++ tname) = dot :: dotdot :: seen t (item ++ tname) := rfl
  have hdots : copyEntry item dest tname (copyEntry item dest tname (t, []) dot) dotdot = (t, []) := rfl
  rw [copyStep, if_pos h, hlist, List.foldl_cons, List.foldl_cons, hdots]

theorem copied_copyStep (h : t.isDir (item ++ tname) = true) :
    Copied item dest tname (seen t (item ++ tname)) t (copyStep item dest t tname).1 := by
  rw [copyStep_eq h]
  exact (foldl_copyEntry [] fun name hname => (mem_seen.mp hname).1).1

theorem pushed_copyStep (h : t.isDir (item ++ tname) = true) :
    (copyStep item dest t tname).2 = (((seen t (item ++ tname)).filter fun name =>
      t.isDir (item ++ tname ++ [name])).map (tname ++ [·])).reverse := by
  rw [copyStep_eq h, (foldl_copyEntry [] fun name hname => (mem_seen.mp hname).1).2, List.append_nil]

theorem mem_pushed (h : t.isDir (item ++ tname) = true) {r : Loc} :
    r ∈ (copyStep item dest t tname).2 ↔
      ∃ name, r = tname ++ [name] ∧ isHidden name = false ∧ t.isDir (item ++ tname ++ [name]) = true := by
  rw [pushed_copyStep h, List.mem_reverse, List.mem_map]
  constructor
  · rintro ⟨name, hmem, rfl⟩
    obtain ⟨hseen, hdir⟩ := List.mem_filter.mp hmem
    exact ⟨name, rfl, (mem_seen.mp hseen).2, hdir⟩
  · rintro ⟨name, rfl, hvisible, hdir⟩
    have hthere : t.node (item ++ tname ++ [name]) ≠ none := by
      rw [Tree.isDir_iff.mp hdir]
      exact Option.some_ne_none _
    exact ⟨name, List.mem_filter.mpr ⟨mem_seen.mpr ⟨hthere, hvisible⟩, hdir⟩, rfl⟩

theorem nodup_pushed (h : t.isDir (item ++ tname) = true) : (copyStep item dest t tname).2.Nodup := by
  rw [pushed_copyStep h, List.nodup_reverse]
  apply List.Nodup.map
  · intro name name' heq
    simpa using heq
  · exact ((t.nodup_names _).filter _).filter _

/-! ## The loop, whatever is at the place of the copy -/

theorem mem_ends {r : Loc} : r ∈ ends t ↔ ∃ l ∈ t.places, r <:+ l := by
  simp only [ends, List.mem_flatMap, List.mem_tails]

/-- What holds when the folders `taken` are copied and those on the stack are not. The places that
are taken are always the last parts of places from the start: a folder that is copied into the one
above it has all that it gets from further below. -/
structure Walked (item : Loc) (t₀ : Tree) (taken stack : List Loc) (t : Tree) : Prop where
  apart : (taken ++ stack).Nodup
  above : ∀ r name, r ++ [name] ∈ taken ++ stack → r ∈ taken
  dirs : ∀ r ∈ taken ++ stack, t.isDir (item ++ r) = true
  inside : ∀ r x, t.node (item ++ r) = some x → r ∈ ends t₀
  kept : ∀ k x, t₀.node k = some x → t.node k = some x

theorem walked_start (h : t.isDir item = true) : Walked item t [] [[]] t where
  apart := by simp
  above := by simp
  dirs := by simpa using h
  inside := by
    intro r x hx
    exact mem_ends.mpr ⟨_, t.covers _ x hx, List.suffix_append _ _⟩
  kept := fun _ _ hk => hk

theorem taken_perm (r : Loc) (taken pushed stack : List Loc) :
    r :: taken ++ (pushed ++ stack) ~ pushed ++ (taken ++ r :: stack) := by
  calc r :: taken ++ (pushed ++ stack)
    _ ~ pushed ++ (r :: taken ++ stack) := List.perm_append_comm_assoc _ _ _
    _ ~ pushed ++ (taken ++ r :: stack) := List.perm_middle.symm.append_left _

theorem Walked.not_taken {t₀ : Tree} {taken stack : List Loc} {r : Loc}
    (h : Walked item t₀ taken (r :: stack) t) : r ∉ taken := by
  intro hmem
  have hnodup := List.perm_middle.nodup_iff.mp h.apart
  exact (List.nodup_cons.mp hnodup).1 (List.mem_append_left _ hmem)

theorem Walked.step {t₀ : Tree} {taken stack : List Loc} {r : Loc}
    (hself : item <+: dest → item = dest) (h : Walked item t₀ taken (r :: stack) t) :
    Walked item t₀ (r :: taken) ((copyStep item dest t r).2 ++ stack) (copyStep item dest t r).1 := by
  have hdir := h.dirs r (List.mem_append_right _ List.mem_cons_self)
  have hcopied : Copied item dest r _ t (copyStep item dest t r).1 := copied_copyStep hdir
  have hperm := taken_perm r taken (copyStep item dest t r).2 stack
  refine ⟨?_, ?_, ?_, ?_, ?_⟩
  · rw [hperm.nodup_iff, List.nodup_append]
    refine ⟨nodup_pushed hdir, h.apart, ?_⟩
    rintro q hq q' hq' rfl
    obtain ⟨name, rfl, -, -⟩ := (mem_pushed hdir).mp hq
    exact h.not_taken (h.above r name hq')
  · intro q name hmem
    rw [hperm.mem_iff, List.mem_append] at hmem
    rcases hmem with hmem | hmem
    · obtain ⟨name', heq, -, -⟩ := (mem_pushed hdir).mp hmem
      rw [List.append_inj_left' heq rfl]
      exact List.mem_cons_self
    · exact List.mem_cons_of_mem r (h.above q name hmem)
  · intro q hmem
    rw [hperm.mem_iff, List.mem_append] at hmem
    rw [Tree.isDir_iff]
    apply hcopied.kept
    rw [← Tree.isDir_iff]
    rcases hmem with hmem | hmem
    · obtain ⟨name, rfl, -, hname⟩ := (mem_pushed hdir).mp hmem
      rwa [← List.append_assoc]
    · exact h.dirs q hmem
  · intro q x hx
    by_cases hto : ∃ name ∈ seen t (item ++ r), item ++ q = dest ++ r ++ [name]
    · obtain ⟨name, hname, heq⟩ := hto
      obtain ⟨y, hy⟩ := Option.ne_none_iff_exists'.mp (mem_seen.mp hname).1
      rw [List.append_assoc] at heq hy
      obtain ⟨l, hl, hsuffix⟩ := mem_ends.mp (h.inside _ y hy)
      -- `q` is the end of a place that the folder had already.
      have hend : q <:+ r ++ [name] := by
        rcases List.append_eq_append_iff.mp heq with ⟨p, hdest, hq⟩ | ⟨p, hitem, hr⟩
        · have hp : p = [] := by
            have hsame := hself ⟨p, hdest.symm⟩
            rw [hdest] at hsame
            simpa using hsame
          rw [hq, hp, List.nil_append]
        · exact ⟨p, hr.symm⟩
      exact mem_ends.mpr ⟨l, hl, hend.trans hsuffix⟩
    · rw [hcopied.others _ (fun name hname heq => hto ⟨name, hname, heq⟩)] at hx
      exact h.inside q x hx
  · intro k x hk
    exact hcopied.kept (h.kept k x hk)

theorem Walked.mem_ends {t₀ : Tree} {taken stack : List Loc} (h : Walked item t₀ taken stack t) :
    taken ++ stack ⊆ ends t₀ := by
  intro r hr
  exact h.inside r _ (Tree.isDir_iff.mp (h.dirs r hr))

theorem copyLoop_kept (hitem : t.isDir item = true) (hself : item <+: dest → item = dest) :
    ∃ t', copyLoop item dest t = some t' ∧ ∀ k x, t.node k = some x → t'.node k = some x := by
  obtain ⟨taken, t', hrun, h⟩ := StackWalk.run_of_invariant (Walked item t)
    (fun _ _ _ _ => Walked.step hself) (fun _ _ _ h => ⟨h.apart, h.mem_ends⟩) (walked_start hitem)
    (Nat.le_refl _)
  exact ⟨t', hrun, h.kept⟩

/-! ## The loop, where the place of the copy is new -/

/-- The copy has nothing in it, and the two do not lie in each other. -/
structure Fresh (item dest : Loc) (t : Tree) : Prop where
  isDir_item : t.isDir item = true
  isDir_dest : t.isDir dest = true
  empty : ∀ name r, t.node (dest ++ name :: r) = none
  outside : ¬ item <+: dest

theorem Fresh.not_below (h : Fresh item dest t) (r : Loc) : ¬ dest <+: item ++ r := by
  intro hbelow
  rcases List.prefix_or_prefix_of_prefix hbelow (List.prefix_append item r) with hdest | hitem
  · obtain ⟨q, rfl⟩ := hdest
    cases q with
    | nil => exact h.outside (by simp)
    | cons name q =>
      have hdir := Tree.isDir_iff.mp h.isDir_item
      rw [h.empty] at hdir
      cases hdir
  · exact h.outside hitem

/-- The folders that are taken are those that are seen, and what is seen in them is copied. -/
structure Mirrored (item dest : Loc) (t₀ : Tree) (taken stack : List Loc) (t : Tree) : Prop
    extends Walked item t₀ taken stack t where
  start : [] ∈ taken ++ stack
  visible : ∀ r name, r ++ [name] ∈ taken ++ stack → isHidden name = false
  pushed : ∀ r name, r ∈ taken → isHidden name = false → t₀.isDir (item ++ r ++ [name]) = true →
    r ++ [name] ∈ taken ++ stack
  others : ∀ k, ¬ dest <+: k → t.node k = t₀.node k
  mirror : ∀ r name, t.node (dest ++ r ++ [name]) =
    if r ∈ taken ∧ isHidden name = false then t₀.node (item ++ r ++ [name]) else none

theorem mirrored_start (h : Fresh item dest t) : Mirrored item dest t [] [[]] t where
  toWalked := walked_start h.isDir_item
  start := List.mem_cons_self
  visible := by simp
  pushed := by simp
  others := fun _ _ => rfl
  mirror := by
    intro r name
    rw [if_neg (by simp), List.append_assoc]
    cases r with
    | nil => exact h.empty name []
    | cons name' r => exact h.empty name' (r ++ [name])

section

variable {t₀ : Tree} {taken stack : List Loc} {r : Loc}

theorem Mirrored.node_item (hfresh : Fresh item dest t₀) (h : Mirrored item dest t₀ taken stack t)
    (q : Loc) : t.node (item ++ q) = t₀.node (item ++ q) :=
  h.others _ (hfresh.not_below q)

theorem Mirrored.isDir_dest (hfresh : Fresh item dest t₀)
    (h : Mirrored item dest t₀ taken (r :: stack) t) : t.isDir (dest ++ r) = true := by
  have hr : r ∈ taken ++ r :: stack := List.mem_append_right _ List.mem_cons_self
  rw [Tree.isDir_iff]
  rcases List.eq_nil_or_concat' r with rfl | ⟨q, name, rfl⟩
  · rw [List.append_nil]
    exact h.kept _ _ (Tree.isDir_iff.mp hfresh.isDir_dest)
  · rw [← List.append_assoc, h.mirror, if_pos ⟨h.above q name hr, h.visible q name hr⟩,
      List.append_assoc, ← h.node_item hfresh]
    exact Tree.isDir_iff.mp (h.dirs _ hr)

theorem Mirrored.mirror_step (hfresh : Fresh item dest t₀)
    (h : Mirrored item dest t₀ taken (r :: stack) t) (q : Loc) (name : QString) :
    (copyStep item dest t r).1.node (dest ++ q ++ [name]) =
      if q ∈ r :: taken ∧ isHidden name = false then t₀.node (item ++ q ++ [name]) else none := by
  have hdir := h.dirs r (List.mem_append_right _ List.mem_cons_self)
  have hcopied : Copied item dest r _ t (copyStep item dest t r).1 := copied_copyStep hdir
  by_cases hq : q = r
  · subst hq
    have hnone : t.node (dest ++ q ++ [name]) = none := by
      rw [h.mirror, if_neg (fun hq => h.not_taken hq.1)]
    have hsource : t.node (item ++ q ++ [name]) = t₀.node (item ++ q ++ [name]) := by
      rw [List.append_assoc, h.node_item hfresh]
    by_cases hseen : name ∈ seen t (item ++ q)
    · rw [hcopied.copied name hseen, hnone, Option.none_or, if_pos (h.isDir_dest hfresh), hsource,
        if_pos ⟨List.mem_cons_self, (mem_seen.mp hseen).2⟩]
    · rw [hcopied.not_copied hseen, hnone]
      split
      · next hvisible =>
        rw [mem_seen, hsource] at hseen
        by_contra hne
        exact hseen ⟨Ne.symm hne, hvisible.2⟩
      · rfl
  · have hne : ∀ name' ∈ seen t (item ++ r), dest ++ q ++ [name] ≠ dest ++ r ++ [name'] := by
      intro name' _ heq
      exact hq (List.append_cancel_left (List.append_inj_left' heq rfl))
    rw [hcopied.others _ hne, h.mirror]
    simp [hq]

theorem Mirrored.step (hfresh : Fresh item dest t₀) (h : Mirrored item dest t₀ taken (r :: stack) t) :
    Mirrored item dest t₀ (r :: taken) ((copyStep item dest t r).2 ++ stack)
      (copyStep item dest t r).1 := by
  have hdir := h.dirs r (List.mem_append_right _ List.mem_cons_self)
  have hcopied : Copied item dest r _ t (copyStep item dest t r).1 := copied_copyStep hdir
  have hperm := taken_perm r taken (copyStep item dest t r).2 stack
  refine ⟨h.toWalked.step (fun hpre => absurd hpre hfresh.outside), ?_, ?_, ?_, ?_,
    h.mirror_step hfresh⟩
  · rw [hperm.mem_iff]
    exact List.mem_append_right _ h.start
  · intro q name hmem
    rw [hperm.mem_iff, List.mem_append] at hmem
    rcases hmem with hmem | hmem
    · obtain ⟨name', heq, hvisible, -⟩ := (mem_pushed hdir).mp hmem
      rwa [List.singleton_inj.mp (List.append_inj_right' heq rfl)]
    · exact h.visible q name hmem
  · intro q name hq hvisible hname
    rw [hperm.mem_iff, List.mem_append]
    rcases List.mem_cons.mp hq with rfl | hq
    · left
      rw [mem_pushed hdir]
      refine ⟨name, rfl, hvisible, ?_⟩
      rw [Tree.isDir_iff, List.append_assoc, h.node_item hfresh, ← List.append_assoc]
      exact Tree.isDir_iff.mp hname
    · exact .inr (h.pushed q name hq hvisible hname)
  · intro k hk
    have hne : ∀ name ∈ seen t (item ++ r), k ≠ dest ++ r ++ [name] := by
      rintro name - rfl
      exact hk ⟨r ++ [name], by rw [List.append_assoc]⟩
    rw [hcopied.others k hne, h.others k hk]

end

theorem Mirrored.mem_taken {t₀ : Tree} {taken : List Loc} (hfresh : Fresh item dest t₀)
    (h : Mirrored item dest t₀ taken [] t) (r : Loc) :
    r ∈ taken ↔ Visible r ∧ t₀.isDir (item ++ r) = true := by
  have hdirs : ∀ q ∈ taken, t₀.isDir (item ++ q) = true := by
    intro q hq
    rw [Tree.isDir_iff, ← h.node_item hfresh]
    exact Tree.isDir_iff.mp (h.dirs q (List.mem_append_left _ hq))
  induction r using List.reverseRecOn with
  | nil =>
    have hstart : [] ∈ taken := by simpa using h.start
    exact iff_of_true hstart ⟨by simp [Visible], hdirs [] hstart⟩
  | append_singleton r name ih =>
    constructor
    · intro hmem
      have hmem' : r ++ [name] ∈ taken ++ [] := List.mem_append_left _ hmem
      have hvisible := (ih.mp (h.above r name hmem')).1
      refine ⟨?_, hdirs _ hmem⟩
      intro name' hname'
      rcases List.mem_append.mp hname' with hname' | hname'
      · exact hvisible name' hname'
      · rw [List.mem_singleton.mp hname']
        exact h.visible r name hmem'
    · rintro ⟨hvisible, hdir⟩
      rw [← List.append_assoc] at hdir
      have hr : r ∈ taken := ih.mpr
        ⟨fun name' hname' => hvisible name' (List.mem_append_left _ hname'),
          Tree.isDir_iff.mpr (t₀.closed _ _ _ (Tree.isDir_iff.mp hdir))⟩
      simpa using h.pushed r name hr (hvisible name (by simp)) hdir

theorem copyLoop_mirror (h : Fresh item dest t) :
    ∃ t', copyLoop item dest t = some t' ∧ (∀ k, ¬ dest <+: k → t'.node k = t.node k) ∧
      ∀ r, t'.node (dest ++ r) = if Visible r then t.node (item ++ r) else none := by
  obtain ⟨taken, t', hrun, hend⟩ := StackWalk.run_of_invariant (Mirrored item dest t)
    (fun _ _ _ _ => Mirrored.step h) (fun _ _ _ h => ⟨h.apart, h.mem_ends⟩) (mirrored_start h)
    (Nat.le_refl _)
  refine ⟨t', hrun, hend.others, ?_⟩
  intro r
  rcases List.eq_nil_or_concat' r with rfl | ⟨q, name, rfl⟩
  · rw [if_pos (by simp [Visible]), List.append_nil, List.append_nil, Tree.isDir_iff.mp h.isDir_item]
    exact hend.kept _ _ (Tree.isDir_iff.mp h.isDir_dest)
  · have hsplit : Visible (q ++ [name]) ↔ Visible q ∧ isHidden name = false := by
      simp [Visible, or_imp, forall_and]
    rw [← List.append_assoc, ← List.append_assoc, hend.mirror]
    simp only [hend.mem_taken h, hsplit]
    by_cases hdir : t.isDir (item ++ q) = true
    · simp [hdir]
    · have hnone : t.node (item ++ q ++ [name]) = none := by
        rw [Option.eq_none_iff_forall_ne_some]
        intro x hx
        exact hdir (Tree.isDir_iff.mpr (t.closed _ _ _ hx))
      rw [hnone, ite_self, ite_self]

end NullFxp.SessionDialog
