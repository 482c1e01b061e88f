import Mathlib.Data.List.Dedup
import NullFxp.BaseStorage
import NullFxp.Sync.Walk

/-!
# The session tree

Folders and session files below the directory of the sessions. A place is the names on the way down
to it. Every change keeps the entries in folders, and under names that entries can have.
-/

namespace NullFxp.SessionDialog

open NullFxp.Sync (Loc dot dotdot isHidden not_dot_of_isName)

inductive Node where
  | folder
  | session (keys : QMap)

def Node.isFolder : Node → Bool
  | folder => true
  | session _ => false

structure Tree where
  node : Loc → Option Node
  /-- There are entries at these places only. -/
  places : List Loc
  covers : ∀ l x, node l = some x → l ∈ places
  root : node [] = some .folder
  named : ∀ l name x, node (l ++ [name]) = some x → IsName name
  closed : ∀ l name x, node (l ++ [name]) = some x → node l = some .folder

namespace Tree

/-- `QFile::exists` -/
def isThere (t : Tree) (l : Loc) : Bool := (t.node l).isSome

def isDir (t : Tree) (l : Loc) : Bool := (t.node l).any Node.isFolder

/-- The names in a folder, in the order in which they are listed. -/
def names (t : Tree) (l : Loc) : List QString :=
  (t.places.filterMap fun k => if k.dropLast = l then k.getLast? else none).dedup.filter fun name =>
    t.isThere (l ++ [name])

/-- `QDir::entryList()`: no filter is set, so hidden entries are left out. -/
def entryList (t : Tree) (l : Loc) : List QString :=
  (dot :: dotdot :: t.names l).filter fun name => !isHidden name

variable {t : Tree} {l k : Loc} {name : QString} {x : Node}

theorem isDir_iff : t.isDir l = true ↔ t.node l = some .folder := by
  rw [isDir, Option.any_eq_true]
  constructor
  · rintro ⟨x, hx, hfolder⟩
    cases x with
    | folder => exact hx
    | session keys => cases hfolder
  · intro h
    exact ⟨_, h, rfl⟩

theorem isDir_eq (h : t.node l = some x) : t.isDir l = x.isFolder := by
  rw [isDir, h, Option.any_some]

theorem isThere_iff : t.isThere l = true ↔ t.node l ≠ none := by
  rw [isThere, Option.isSome_iff_ne_none]

theorem folder_above {r : Loc} (hr : r ≠ []) (h : t.node (l ++ r) = some x) :
    t.node l = some .folder := by
  induction r using List.reverseRecOn generalizing x with
  | nil => exact absurd rfl hr
  | append_singleton r name ih =>
    rw [← List.append_assoc] at h
    have hparent := t.closed _ _ _ h
    by_cases hempty : r = []
    · rwa [hempty, List.append_nil] at hparent
    · exact ih hempty hparent

theorem isName_of_mem (h : t.node l = some x) : ∀ name ∈ l, IsName name := by
  induction l using List.reverseRecOn generalizing x with
  | nil => simp
  | append_singleton l name ih =>
    intro name' hmem
    rcases List.mem_append.mp hmem with hmem | hmem
    · exact ih (t.closed _ _ _ h) name' hmem
    · exact List.mem_singleton.mp hmem ▸ t.named _ _ _ h

theorem none_below (h : t.node l = none) (r : Loc) : t.node (l ++ r) = none := by
  by_cases hr : r = []
  · rw [hr, List.append_nil, h]
  · rw [Option.eq_none_iff_forall_ne_some]
    intro x hx
    rw [folder_above hr hx] at h
    cases h

theorem mem_names : name ∈ t.names l ↔ t.node (l ++ [name]) ≠ none := by
  rw [names, List.mem_filter, List.mem_dedup, List.mem_filterMap, isThere_iff]
  refine and_iff_right_of_imp fun h => ?_
  obtain ⟨x, hx⟩ := Option.ne_none_iff_exists'.mp h
  exact ⟨l ++ [name], t.covers _ x hx, by simp⟩

theorem nodup_names (t : Tree) (l : Loc) : (t.names l).Nodup := (List.nodup_dedup _).filter _

theorem not_prefix_of_child (l : Loc) (name : QString) : ¬ l ++ [name] <+: l := by
  intro h
  have hlen := h.length_le
  rw [List.length_append, List.length_singleton] at hlen
  omega

/-! ## Changes -/

/-- An entry that is not a folder is replaced. -/
def write (t : Tree) (l : Loc) (name : QString) (x : Node) : Tree :=
  if h : IsName name ∧ t.isDir l = true ∧ t.isDir (l ++ [name]) = false then
    { node := fun k => if k = l ++ [name] then some x else t.node k
      places := (l ++ [name]) :: t.places
      covers := by
        intro k y hy
        split at hy
        · next hk => exact hk ▸ List.mem_cons_self
        · exact List.mem_cons_of_mem _ (t.covers k y hy)
      root := by
        rw [if_neg (by simp), t.root]
      named := by
        intro k name' y hy
        split at hy
        · next hk => exact (List.append_inj_right' hk rfl |> List.singleton_inj.mp) ▸ h.1
        · exact t.named k name' y hy
      closed := by
        intro k name' y hy
        split at hy
        · next hk =>
          rw [List.append_inj_left' hk rfl, if_neg (by simp), isDir_iff.mp h.2.1]
        · have hfolder := t.closed k name' y hy
          rw [if_neg, hfolder]
          rintro rfl
          rw [isDir_iff.mpr hfolder] at h
          cases h.2.2 }
  else t

/-- A new entry. Nothing is done where there is one. -/
def create (t : Tree) (l : Loc) (name : QString) (x : Node) : Tree :=
  if t.isThere (l ++ [name]) then t else t.write l name x

/-- `QDir::mkdir`, with its result -/
def mkdir (t : Tree) (l : Loc) (name : QString) : Bool × Tree :=
  (t.isDir l && !t.isThere (l ++ [name]), t.create l name .folder)

/-- `QFile::copy`: the file has to be there, and the new one must not. -/
def copy (t : Tree) (src l : Loc) (name : QString) : Tree :=
  match t.node src with
  | some (.session keys) => t.create l name (.session keys)
  | _ => t

/-- `QDir::rmdir`: the folder has to be empty. -/
def rmdir (t : Tree) (l : Loc) : Tree :=
  if h : l ≠ [] ∧ t.names l = [] then
    { node := fun k => if k = l ∧ t.isDir l = true then none else t.node k
      places := t.places
      covers := by
        intro k y hy
        split at hy
        · cases hy
        · exact t.covers k y hy
      root := by
        rw [if_neg (fun h' => h.1 h'.1.symm), t.root]
      named := by
        intro k name y hy
        split at hy
        · cases hy
        · exact t.named k name y hy
      closed := by
        intro k name y hy
        split at hy
        · cases hy
        · rw [if_neg, t.closed k name y hy]
          rintro ⟨rfl, -⟩
          have hmem : name ∈ t.names k := mem_names.mpr (by simp [hy])
          rw [h.2] at hmem
          cases hmem }
  else t

/-- `QDir::rename`: an entry that is there, under a new name that is not, and not into itself. -/
def rename (t : Tree) (src l : Loc) (name : QString) : Tree :=
  if h : t.isThere src = true ∧ IsName name ∧ t.isDir l = true ∧
      t.isThere (l ++ [name]) = false ∧ ¬ src <+: l ++ [name] then
    { node := fun k =>
        if l ++ [name] <+: k then t.node (src ++ k.drop (l ++ [name]).length)
        else if src <+: k then none
        else t.node k
      places := t.places ++ t.places.map fun k => l ++ [name] ++ k.drop src.length
      covers := by
        intro k y hy
        split at hy
        · next hk =>
          obtain ⟨r, rfl⟩ := hk
          rw [List.drop_left] at hy
          refine List.mem_append_right _ (List.mem_map.mpr ⟨_, t.covers _ y hy, ?_⟩)
          rw [List.drop_left]
        · split at hy
          · cases hy
          · exact List.mem_append_left _ (t.covers k y hy)
      root := by
        have hsrc : src ≠ [] := by
          rintro rfl
          exact h.2.2.2.2 List.nil_prefix
        rw [if_neg (by simp), if_neg (by simpa using hsrc), t.root]
      named := by
        intro k name' y hy
        split at hy
        · next hk =>
          rcases List.prefix_concat_iff.mp hk with heq | ⟨r, rfl⟩
          · exact (List.append_inj_right' heq rfl |> List.singleton_inj.mp) ▸ h.2.1
          · rw [List.append_assoc, List.drop_left, ← List.append_assoc] at hy
            exact t.named _ _ y hy
        · split at hy
          · cases hy
          · exact t.named k name' y hy
      closed := by
        intro k name' y hy
        split at hy
        · next hk =>
          rcases List.prefix_concat_iff.mp hk with heq | ⟨r, rfl⟩
          · obtain rfl : l = k := List.append_inj_left' heq rfl
            have hsrc : ¬ src <+: l := fun hsrc => h.2.2.2.2 (hsrc.trans (List.prefix_append _ _))
            rw [if_neg (not_prefix_of_child l name), if_neg hsrc, isDir_iff.mp h.2.2.1]
          · rw [List.append_assoc, List.drop_left, ← List.append_assoc] at hy
            rw [if_pos (List.prefix_append _ _), List.drop_left]
            exact t.closed _ _ y hy
        · next hk =>
          split at hy
          · cases hy
          · next hsrc =>
            rw [if_neg (fun hdest => hk (hdest.trans (List.prefix_append _ _))),
              if_neg (fun hk => hsrc (hk.trans (List.prefix_append _ _))), t.closed k name' y hy] }
  else t

theorem node_write (hname : IsName name) (hl : t.node l = some .folder)
    (hfree : t.node (l ++ [name]) ≠ some .folder) (k : Loc) :
    (t.write l name x).node k = if k = l ++ [name] then some x else t.node k := by
  rw [← isDir_iff] at hl
  rw [ne_eq, ← isDir_iff, Bool.not_eq_true] at hfree
  rw [write, dif_pos ⟨hname, hl, hfree⟩]

theorem node_write_of_ne (hk : k ≠ l ++ [name]) : (t.write l name x).node k = t.node k := by
  unfold write
  split
  · exact if_neg hk
  · rfl

theorem write_of_folder (h : t.node (l ++ [name]) = some .folder) : t.write l name x = t := by
  rw [write, dif_neg]
  rintro ⟨-, -, hfree⟩
  rw [isDir_iff.mpr h] at hfree
  cases hfree

theorem create_of_there {y : Node} (h : t.node (l ++ [name]) = some y) : t.create l name x = t := by
  rw [create, if_pos (isThere_iff.mpr (by simp [h]))]

theorem create_of_not_folder (h : t.node l ≠ some .folder) : t.create l name x = t := by
  unfold create write
  rw [ne_eq, ← isDir_iff] at h
  simp [h]

theorem node_create (hname : IsName name) (hl : t.node l = some .folder)
    (hfree : t.node (l ++ [name]) = none) (k : Loc) :
    (t.create l name x).node k = if k = l ++ [name] then some x else t.node k := by
  have hthere : ¬ t.isThere (l ++ [name]) = true := by simp [isThere, hfree]
  rw [create, if_neg hthere, node_write hname hl (by simp [hfree])]

theorem node_rmdir_mkdir (hname : IsName name) (hl : t.node l = some .folder)
    (hfree : t.node (l ++ [name]) = none) (k : Loc) :
    ((t.mkdir l name).2.rmdir (l ++ [name])).node k = t.node k := by
  have hnode := node_create (x := .folder) hname hl hfree
  have hempty : (t.create l name .folder).names (l ++ [name]) = [] := by
    rw [List.eq_nil_iff_forall_not_mem]
    intro name' hmem
    apply mem_names.mp hmem
    rw [hnode, if_neg (by simp), none_below hfree]
  have hdir : (t.create l name .folder).isDir (l ++ [name]) = true := by
    rw [isDir_iff, hnode, if_pos rfl]
  unfold mkdir rmdir
  rw [dif_pos ⟨by simp, hempty⟩]
  simp only [hdir, and_true, hnode]
  split
  · next hk => rw [hk, hfree]
  · rfl

theorem node_rename {src : Loc} (hsrc : t.node src ≠ none) (hname : IsName name)
    (hl : t.node l = some .folder) (hfree : t.node (l ++ [name]) = none) (hself : ¬ src <+: l ++ [name])
    (k : Loc) : (t.rename src l name).node k =
      if l ++ [name] <+: k then t.node (src ++ k.drop (l ++ [name]).length)
      else if src <+: k then none
      else t.node k := by
  have hthere : t.isThere (l ++ [name]) = false := by simp [isThere, hfree]
  rw [rename, dif_pos ⟨isThere_iff.mpr hsrc, hname, isDir_iff.mpr hl, hthere, hself⟩]

theorem rename_of_there {src : Loc} (h : t.node (l ++ [name]) ≠ none) : t.rename src l name = t := by
  unfold rename
  rw [dif_neg]
  rintro ⟨-, -, -, hfree, -⟩
  rw [isThere_iff.mpr h] at hfree
  cases hfree

end Tree

end NullFxp.SessionDialog
