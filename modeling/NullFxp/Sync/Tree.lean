import Mathlib.Data.List.Induction
import NullFxp.Transportor.Tree

/-!
# Trees of directories and regular files

What there is below a base directory, as a list of places. A place is the names on the way down
from the base directory, which is always there and has no entry of its own.
-/

namespace NullFxp.Sync

abbrev Loc := List QString

inductive Node where
  | dir (size mtime : Nat)
  | file (content : List UInt8) (mtime : Nat)
  deriving DecidableEq

namespace Node

def isDir : Node → Bool
  | dir _ _ => true
  | file _ _ => false

def size : Node → Nat
  | dir size _ => size
  | file content _ => content.length

def mtime : Node → Nat
  | dir _ mtime => mtime
  | file _ mtime => mtime

def touch (mtime : Nat) : Node → Node
  | dir size _ => dir size mtime
  | file content _ => file content mtime

def write (content : List UInt8) (mtime : Nat) : Node → Node
  | dir size mtime => dir size mtime
  | file _ _ => file content mtime

/-- A directory after an entry was made in it. -/
def grow (grown : Nat × Nat → Nat × Nat) : Node → Node
  | dir size mtime => dir (grown (size, mtime)).1 (grown (size, mtime)).2
  | file content mtime => file content mtime

@[simp]
theorem isDir_touch (mtime : Nat) (node : Node) : (node.touch mtime).isDir = node.isDir := by
  cases node <;> rfl

@[simp]
theorem isDir_write (content : List UInt8) (mtime : Nat) (node : Node) :
    (node.write content mtime).isDir = node.isDir := by
  cases node <;> rfl

@[simp]
theorem isDir_grow (grown : Nat × Nat → Nat × Nat) (node : Node) :
    (node.grow grown).isDir = node.isDir := by
  cases node <;> rfl

/-- What of a node does not depend on its file system: the size and the time of a file. -/
def shape : Node → Option (Nat × Nat)
  | dir _ _ => none
  | file content mtime => some (content.length, mtime)

end Node

/-- A way down over names that entries can have. -/
def IsLoc (l : Loc) : Prop := l ≠ [] ∧ ∀ name ∈ l, IsName name

instance (l : Loc) : Decidable (IsLoc l) := inferInstanceAs (Decidable (_ ∧ _))

structure Tree where
  entries : List (Loc × Node)
  nodup : (entries.map Prod.fst).Nodup
  named : ∀ e ∈ entries, IsLoc e.1
  closed : ∀ e ∈ entries, e.1.dropLast ≠ [] → ∃ p ∈ entries, p.1 = e.1.dropLast ∧ p.2.isDir = true

namespace Tree

def find (T : Tree) (l : Loc) : Option Node := Assoc.value T.entries l

def isDir (T : Tree) (l : Loc) : Bool := l = [] || (T.find l).any Node.isDir

def IsFile (T : Tree) (l : Loc) : Prop := ∃ content mtime, T.find l = some (.file content mtime)

/-- The entries of the directory `d`, in the order in which they are listed. -/
def list (T : Tree) (d : Loc) : List (QString × Node) :=
  T.entries.filterMap fun e =>
    if e.1.dropLast = d then e.1.getLast?.map fun name => (name, e.2) else none

variable {T : Tree} {l d : Loc} {node : Node}

theorem mem_entries_iff : (l, node) ∈ T.entries ↔ T.find l = some node :=
  (Assoc.value_eq_some_iff T.nodup).symm

theorem find_named (h : T.find l = some node) : IsLoc l := T.named _ (mem_entries_iff.mpr h)

theorem isDir_of_find (h : T.find l = some node) : T.isDir l = node.isDir := by
  have hne := (find_named h).1
  simp [isDir, h, hne]

theorem isDir_cases (h : T.isDir l = true) : l = [] ∨ ∃ size mtime, T.find l = some (.dir size mtime) := by
  rw [isDir, Bool.or_eq_true, decide_eq_true_eq, Option.any_eq_true] at h
  rcases h with h | ⟨node, hfind, hdir⟩
  · exact .inl h
  · cases node with
    | dir size mtime => exact .inr ⟨size, mtime, hfind⟩
    | file content mtime => cases hdir

theorem isDir_parent (h : T.find l = some node) : T.isDir l.dropLast = true := by
  by_cases hne : l.dropLast = []
  · simp [isDir, hne]
  · obtain ⟨p, hp, hpl, hdir⟩ := T.closed _ (mem_entries_iff.mpr h) hne
    have hfind : T.find p.1 = some p.2 := mem_entries_iff.mp hp
    rw [← show p.1 = l.dropLast from hpl, isDir_of_find hfind, hdir]

theorem isDir_dropLast (h : T.isDir l = true) : T.isDir l.dropLast = true := by
  rcases isDir_cases h with rfl | ⟨size, mtime, hfind⟩
  · rfl
  · exact isDir_parent hfind

theorem isDir_of_append {rest : Loc} (h : T.isDir (d ++ rest) = true) : T.isDir d = true := by
  induction rest using List.reverseRecOn with
  | nil => simpa using h
  | append_singleton rest name ih =>
    apply ih
    have hparent := isDir_dropLast h
    rwa [← List.append_assoc, List.dropLast_concat] at hparent

theorem mem_list {name : QString} : (name, node) ∈ T.list d ↔ T.find (d ++ [name]) = some node := by
  rw [list, List.mem_filterMap, ← mem_entries_iff]
  constructor
  · rintro ⟨⟨l, node'⟩, hmem, he⟩
    split at he
    · next hd =>
      obtain ⟨last, hlast, hpair⟩ := Option.map_eq_some_iff.mp he
      obtain ⟨rfl, rfl⟩ := Prod.mk.inj hpair
      obtain ⟨rest, rfl⟩ := List.getLast?_eq_some_iff.mp hlast
      rw [List.dropLast_concat] at hd
      exact hd ▸ hmem
    · cases he
  · intro hmem
    exact ⟨_, hmem, by simp⟩

theorem nodup_entries (T : Tree) : T.entries.Nodup := T.nodup.of_map

theorem nodup_list (T : Tree) (d : Loc) : (T.list d).Nodup := by
  apply List.Nodup.filterMap _ T.nodup_entries
  intro e e' p hp hp'
  rw [Option.mem_def] at hp hp'
  split at hp
  · next hd =>
    split at hp'
    · next hd' =>
      obtain ⟨last, hlast, rfl⟩ := Option.map_eq_some_iff.mp hp
      obtain ⟨last', hlast', he⟩ := Option.map_eq_some_iff.mp hp'
      obtain ⟨rfl, hnode⟩ := Prod.mk.inj he
      obtain ⟨rest, hrest⟩ := List.getLast?_eq_some_iff.mp hlast
      obtain ⟨rest', hrest'⟩ := List.getLast?_eq_some_iff.mp hlast'
      rw [hrest, List.dropLast_concat] at hd
      rw [hrest', List.dropLast_concat] at hd'
      exact Prod.ext (by rw [hrest, hrest', hd, hd']) hnode.symm
    · cases hp'
  · cases hp

/-! ## Changes -/

/-- What happens to the entries without a change of their kind. -/
def modify (T : Tree) (f : Loc → Node → Node) (hf : ∀ l node, (f l node).isDir = node.isDir) : Tree where
  entries := T.entries.map fun e => (e.1, f e.1 e.2)
  nodup := by
    rw [List.map_map]
    exact T.nodup
  named := by
    intro e' he'
    obtain ⟨e, he, rfl⟩ := List.mem_map.mp he'
    exact T.named e he
  closed := by
    intro e' he' hne
    obtain ⟨e, he, rfl⟩ := List.mem_map.mp he'
    obtain ⟨p, hp, hpe, hdir⟩ := T.closed e he hne
    exact ⟨_, List.mem_map_of_mem hp, hpe, (hf p.1 p.2).trans hdir⟩

/-- A new entry in a directory. -/
def add (T : Tree) (l : Loc) (node : Node) (hl : IsLoc l) (habsent : T.find l = none)
    (hparent : T.isDir l.dropLast = true) : Tree where
  entries := T.entries ++ [(l, node)]
  nodup := by
    rw [List.map_append, List.map_singleton, List.nodup_append]
    refine ⟨T.nodup, List.nodup_singleton l, ?_⟩
    intro k hk k' hk'
    obtain ⟨e, he, rfl⟩ := List.mem_map.mp hk
    rintro rfl
    obtain rfl := List.mem_singleton.mp hk'
    rw [mem_entries_iff.mp (show (e.1, e.2) ∈ T.entries from he)] at habsent
    cases habsent
  named := by
    intro e he
    rcases List.mem_append.mp he with he | he
    · exact T.named e he
    · rwa [List.mem_singleton.mp he]
  closed := by
    intro e he hne
    rcases List.mem_append.mp he with he | he
    · obtain ⟨p, hp, hdir⟩ := T.closed e he hne
      exact ⟨p, List.mem_append_left _ hp, hdir⟩
    · obtain rfl := List.mem_singleton.mp he
      rcases isDir_cases hparent with hroot | ⟨size, mtime, hfind⟩
      · exact absurd hroot hne
      · exact ⟨_, List.mem_append_left _ (mem_entries_iff.mpr hfind), rfl, rfl⟩

@[simp]
theorem find_modify (T : Tree) (f : Loc → Node → Node)
    (hf : ∀ l node, (f l node).isDir = node.isDir) (l : Loc) :
    (T.modify f hf).find l = (T.find l).map (f l) := by
  cases h : T.find l with
  | some node =>
    rw [Option.map_some, ← mem_entries_iff]
    exact List.mem_map.mpr ⟨_, mem_entries_iff.mpr h, rfl⟩
  | none =>
    rw [Option.map_none, Option.eq_none_iff_forall_not_mem]
    intro node hmem
    obtain ⟨e, he, hpair⟩ := List.mem_map.mp (mem_entries_iff.mpr hmem)
    obtain ⟨rfl, -⟩ := Prod.mk.inj hpair
    rw [mem_entries_iff.mp (show (e.1, e.2) ∈ T.entries from he)] at h
    cases h

theorem find_add (T : Tree) (l : Loc) (node : Node) (hl : IsLoc l) (habsent : T.find l = none)
    (hparent : T.isDir l.dropLast = true) (k : Loc) :
    (T.add l node hl habsent hparent).find k = if k = l then some node else T.find k := by
  have hmem (node' : Node) : (T.add l node hl habsent hparent).find k = some node' ↔
      T.find k = some node' ∨ k = l ∧ node' = node := by
    rw [← mem_entries_iff, ← mem_entries_iff, add, List.mem_append, List.mem_singleton,
      Prod.mk.injEq]
  ext node'
  rw [hmem]
  split
  · next hk =>
    subst hk
    simp [habsent, eq_comm]
  · next hk => simp [hk]

/-- What happens to one entry. -/
def update (T : Tree) (l : Loc) (g : Node → Node) (hg : ∀ node, (g node).isDir = node.isDir) : Tree :=
  T.modify (fun k node => if k = l then g node else node) fun k node => by
    split
    · exact hg node
    · rfl

theorem find_update (T : Tree) (l : Loc) (g : Node → Node)
    (hg : ∀ node, (g node).isDir = node.isDir) (k : Loc) :
    (T.update l g hg).find k = if k = l then (T.find k).map g else T.find k := by
  rw [update, find_modify]
  split
  · rfl
  · exact Option.map_id_fun' ▸ rfl

end Tree

end NullFxp.Sync
