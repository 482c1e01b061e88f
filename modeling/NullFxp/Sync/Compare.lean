import NullFxp.Sync.Walk

/-!
# The comparison of two trees

`SyncWalker::run` walks over the two sides and merges what it finds. The remote walk sees every
entry; the local walk leaves out the hidden ones and what is below them.
-/

open scoped List

namespace NullFxp.Sync

/-- The records of the two walks, each in a place of its own. -/
def alloc (remoteFiles localFiles : List (QString × Attributes)) : Heap := fun p =>
  ((remoteFiles ++ localFiles)[p]?).map Prod.snd

def withRecords (start : Nat) (found : List (QString × Attributes)) : List File :=
  (found.map Prod.fst).zipIdx start

def mergeFound (remoteFiles localFiles : List (QString × Attributes)) : Option Merge :=
  sortMerge (alloc remoteFiles localFiles) (withRecords 0 remoteFiles)
    (withRecords remoteFiles.length localFiles)

/-- `SyncWalker::run`, once the session is there -/
def SyncWalker.run (env : Env) (R L : Tree) : Option Merge := do
  let remoteFiles ← getRemoteFiles env R
  let localFiles ← getLocalFiles env L
  mergeFound remoteFiles localFiles

/-! ## The records -/

@[simp]
theorem names_withRecords (start : Nat) (found : List (QString × Attributes)) :
    names (withRecords start found) = found.map Prod.fst :=
  List.zipIdx_map_fst ..

theorem records_withRecords (start : Nat) (found : List (QString × Attributes)) :
    records (withRecords start found) = List.range' start found.length := by
  rw [records, withRecords, List.zipIdx_map_snd, List.length_map]

theorem recordOf_withRecords {heap : Heap} {start : Nat} {found : List (QString × Attributes)}
    (h : ∀ i, i < found.length → heap (start + i) = found[i]?.map Prod.snd) (name : QString) :
    recordOf heap (withRecords start found) name = Assoc.value found name := by
  induction found generalizing start with
  | nil => rfl
  | cons e found ih =>
    have hrest : recordOf heap (withRecords (start + 1) found) name = Assoc.value found name := by
      apply ih
      intro i hi
      have hheap := h (i + 1) (by rw [List.length_cons]; omega)
      rwa [List.getElem?_cons_succ, ← Nat.add_assoc, Nat.add_right_comm] at hheap
    rw [Assoc.value_cons, ← hrest]
    unfold recordOf withRecords
    rw [List.map_cons, List.zipIdx_cons]
    split
    · next hname =>
      rw [List.find?_cons_of_pos (by simpa using hname), Option.bind_some]
      simpa using h 0 (by simp)
    · next hname => rw [List.find?_cons_of_neg (by simpa using hname)]

section Found

variable {remoteFiles localFiles : List (QString × Attributes)}

theorem recordOf_remote (name : QString) :
    recordOf (alloc remoteFiles localFiles) (withRecords 0 remoteFiles) name =
      Assoc.value remoteFiles name := by
  apply recordOf_withRecords
  intro i hi
  rw [alloc, Nat.zero_add, List.getElem?_append_left hi]

theorem recordOf_local (name : QString) :
    recordOf (alloc remoteFiles localFiles) (withRecords remoteFiles.length localFiles) name =
      Assoc.value localFiles name := by
  apply recordOf_withRecords
  intro i _
  rw [alloc, List.getElem?_append_right (Nat.le_add_right ..), Nat.add_sub_cancel_left]

theorem ready_found (hr : (remoteFiles.map Prod.fst).Nodup) (hl : (localFiles.map Prod.fst).Nodup) :
    Ready (alloc remoteFiles localFiles) (withRecords 0 remoteFiles)
      (withRecords remoteFiles.length localFiles) := by
  have hrecords : records (withRecords 0 remoteFiles) ++
      records (withRecords remoteFiles.length localFiles) =
        List.range' 0 (remoteFiles ++ localFiles).length := by
    rw [records_withRecords, records_withRecords, List.length_append, ← List.range'_append_1,
      Nat.zero_add]
  refine ⟨fun p hp => ?_, ?_, by simpa using hr, by simpa using hl⟩
  · rw [hrecords, List.mem_range'_1, Nat.zero_add] at hp
    simp [alloc, List.getElem?_eq_getElem hp.2]
  · rw [hrecords]
    exact List.nodup_range'

theorem unmarked_found (h : ∀ e ∈ remoteFiles ++ localFiles, e.2.flags &&& diffBits = 0)
    (files : List File) : Unmarked (alloc remoteFiles localFiles) files := by
  intro f _ attr hattr
  obtain ⟨e, he, rfl⟩ := Option.map_eq_some_iff.mp hattr
  exact h e (List.mem_of_getElem? he)

end Found

/-! ## The walk and the merge -/

/-- The record of a place, as the local walk has it. -/
def localRecord (L : Tree) (l : Loc) : Option Attributes :=
  if Visible l then (L.find l).map localAttr else none

def remoteRecord (env : Env) (R : Tree) (l : Loc) : Option Attributes :=
  (R.find l).map env.remoteAttr

theorem nodup_rel {es : List (Loc × Node)} (hnd : (es.map Prod.fst).Nodup)
    (hloc : ∀ e ∈ es, IsLoc e.1) (attrOf : Node → Attributes) :
    ((es.map fun e => (rel e.1, attrOf e.2)).map Prod.fst).Nodup := by
  rw [List.map_map, show Prod.fst ∘ (fun e : Loc × Node => (rel e.1, attrOf e.2)) =
    rel ∘ Prod.fst from rfl, ← List.map_map]
  apply List.Nodup.map_on _ hnd
  intro l hl l' hl' he
  obtain ⟨e, hmem, rfl⟩ := List.mem_map.mp hl
  obtain ⟨e', hmem', rfl⟩ := List.mem_map.mp hl'
  exact rel_inj (hloc e hmem) (hloc e' hmem') he

theorem value_rel {es : List (Loc × Node)} (hnd : (es.map Prod.fst).Nodup)
    (hloc : ∀ e ∈ es, IsLoc e.1) (attrOf : Node → Attributes) {l : Loc} (hl : IsLoc l) :
    Assoc.value (es.map fun e => (rel e.1, attrOf e.2)) (rel l) = (Assoc.value es l).map attrOf := by
  ext attr
  rw [Assoc.value_eq_some_iff (nodup_rel hnd hloc attrOf), List.mem_map, Option.map_eq_some_iff]
  constructor
  · rintro ⟨e, he, hpair⟩
    obtain ⟨hrel, rfl⟩ := Prod.mk.inj hpair
    obtain rfl := rel_inj (hloc e he) hl hrel
    exact ⟨e.2, (Assoc.value_eq_some_iff hnd).mpr he, rfl⟩
  · rintro ⟨node, hnode, rfl⟩
    exact ⟨_, (Assoc.value_eq_some_iff hnd).mp hnode, rfl⟩

/-- What the two walks find: each name once, with the record of its place. -/
structure Found (env : Env) (R L : Tree) (remoteFiles localFiles : List (QString × Attributes)) :
    Prop where
  remote : getRemoteFiles env R = some remoteFiles
  here : getLocalFiles env L = some localFiles
  nodupRemote : (remoteFiles.map Prod.fst).Nodup
  nodupLocal : (localFiles.map Prod.fst).Nodup
  valueRemote : ∀ l, IsLoc l → Assoc.value remoteFiles (rel l) = remoteRecord env R l
  valueLocal : ∀ l, IsLoc l → Assoc.value localFiles (rel l) = localRecord L l
  locRemote : ∀ e ∈ remoteFiles, ∃ l, IsLoc l ∧ rel l = e.1
  locLocal : ∀ e ∈ localFiles, ∃ l, IsLoc l ∧ rel l = e.1
  clear : ∀ e ∈ remoteFiles ++ localFiles, e.2.flags &&& diffBits = 0

theorem exists_found (env : Env) (R L : Tree) :
    ∃ remoteFiles localFiles, Found env R L remoteFiles localFiles := by
  obtain ⟨remoteFiles, hremote, hrperm⟩ := getRemoteFiles_perm env R
  obtain ⟨localFiles, hlocal, hlperm⟩ := getLocalFiles_perm env L
  have hlnd : ((L.entries.filter fun e => Visible e.1).map Prod.fst).Nodup :=
    L.nodup.sublist (List.filter_sublist.map Prod.fst)
  have hlloc : ∀ e ∈ L.entries.filter fun e => Visible e.1, IsLoc e.1 := fun e he =>
    L.named e (List.mem_filter.mp he).1
  have hrnames := (hrperm.map Prod.fst).nodup_iff.mpr (nodup_rel R.nodup R.named env.remoteAttr)
  have hlnames := (hlperm.map Prod.fst).nodup_iff.mpr (nodup_rel hlnd hlloc localAttr)
  refine ⟨remoteFiles, localFiles, hremote, hlocal, hrnames, hlnames, ?_, ?_, ?_, ?_, ?_⟩
  · intro l hl
    rw [Assoc.value_perm hrperm hrnames, value_rel R.nodup R.named env.remoteAttr hl]
    rfl
  · intro l hl
    rw [Assoc.value_perm hlperm hlnames, value_rel hlnd hlloc localAttr hl, localRecord]
    split
    · next hvisible =>
      congr 1
      ext node
      rw [Assoc.value_eq_some_iff hlnd, List.mem_filter, decide_eq_true_eq, Tree.mem_entries_iff]
      exact and_iff_left hvisible
    · next hhidden =>
      rw [Option.map_eq_none_iff, Option.eq_none_iff_forall_ne_some]
      intro node hnode
      rw [Assoc.value_eq_some_iff hlnd, List.mem_filter, decide_eq_true_eq] at hnode
      exact hhidden hnode.2
  · intro e he
    obtain ⟨e', he', rfl⟩ := List.mem_map.mp (hrperm.mem_iff.mp he)
    exact ⟨e'.1, R.named e' he', rfl⟩
  · intro e he
    obtain ⟨e', he', rfl⟩ := List.mem_map.mp (hlperm.mem_iff.mp he)
    exact ⟨e'.1, hlloc e' he', rfl⟩
  · intro e he
    rcases List.mem_append.mp he with he | he
    · obtain ⟨e', -, rfl⟩ := List.mem_map.mp (hrperm.mem_iff.mp he)
      exact env.clear
    · obtain ⟨e', -, rfl⟩ := List.mem_map.mp (hlperm.mem_iff.mp he)
      show (0xF ||| flagLocalFile) &&& diffBits = 0
      decide

theorem value_ne_none_iff {found : List (QString × Attributes)} (hnd : (found.map Prod.fst).Nodup)
    (name : QString) : Assoc.value found name ≠ none ↔ name ∈ found.map Prod.fst := by
  rw [Option.ne_none_iff_exists', List.mem_map]
  constructor
  · rintro ⟨attr, hattr⟩
    exact ⟨(name, attr), (Assoc.value_eq_some_iff hnd).mp hattr, rfl⟩
  · rintro ⟨e, he, rfl⟩
    exact ⟨e.2, (Assoc.value_eq_some_iff hnd).mpr he⟩

section Found

variable {env : Env} {R L : Tree} {remoteFiles localFiles : List (QString × Attributes)}

theorem Found.mem_remote (h : Found env R L remoteFiles localFiles) {l : Loc} (hl : IsLoc l) :
    rel l ∈ remoteFiles.map Prod.fst ↔ R.find l ≠ none := by
  rw [← value_ne_none_iff h.nodupRemote, h.valueRemote l hl, remoteRecord, ne_eq,
    Option.map_eq_none_iff]

theorem Found.mem_local (h : Found env R L remoteFiles localFiles) {l : Loc} (hl : IsLoc l) :
    rel l ∈ localFiles.map Prod.fst ↔ L.find l ≠ none ∧ Visible l := by
  rw [← value_ne_none_iff h.nodupLocal, h.valueLocal l hl, localRecord]
  split
  · next hvisible => simp [hvisible]
  · next hhidden => simp [hhidden]

end Found

theorem Classified.found {r l : Option Attributes} {flag : Nat} (h : Classified r l flag) :
    r ≠ none ∨ l ≠ none := by
  cases h <;> simp

/-- The merge has the place `l`, with the flag in its record. -/
def Marked (m : Merge) (l : Loc) (flag : Nat) : Prop :=
  ∃ f ∈ m.files, f.1 = rel l ∧ ∃ attr, m.heap f.2 = some attr ∧ attr.flags &&& diffBits = flag

/-- **The walk compares the places.** Each is marked by what the two walks see of it. -/
theorem run_marked (env : Env) (R L : Tree) :
    ∃ remoteFiles localFiles m, Found env R L remoteFiles localFiles ∧
      SyncWalker.run env R L = some m ∧ mergeFound remoteFiles localFiles = some m ∧
      (names m.files).Nodup ∧
      (∀ f ∈ m.files, ∃ l attr, IsLoc l ∧ f.1 = rel l ∧ m.heap f.2 = some attr ∧
        Classified (remoteRecord env R l) (localRecord L l) (attr.flags &&& diffBits)) ∧
      ∀ l, IsLoc l → ∀ flag,
        Marked m l flag ↔ Classified (remoteRecord env R l) (localRecord L l) flag := by
  obtain ⟨remoteFiles, localFiles, h⟩ := exists_found env R L
  obtain ⟨m, hm, -, hnodup, hnames, -, -, hmarked⟩ := sortMerge_exact _ _ _
    (ready_found h.nodupRemote h.nodupLocal) (unmarked_found h.clear _)
  have hclass : ∀ l, IsLoc l → ∀ f ∈ m.files, f.1 = rel l → ∃ attr, m.heap f.2 = some attr ∧
      Classified (remoteRecord env R l) (localRecord L l) (attr.flags &&& diffBits) := by
    intro l hl f hf hname
    obtain ⟨attr, hattr, hclass⟩ := hmarked f hf
    rw [recordOf_remote, recordOf_local, hname, h.valueRemote l hl, h.valueLocal l hl] at hclass
    exact ⟨attr, hattr, hclass⟩
  refine ⟨remoteFiles, localFiles, m, h, ?_, hm, hnodup, ?_, ?_⟩
  · rw [SyncWalker.run, h.remote, h.here]
    exact hm
  · intro f hf
    obtain ⟨l, hl, hrel⟩ : ∃ l, IsLoc l ∧ f.1 = rel l := by
      have hname := (hnames f.1).mp (List.mem_map_of_mem hf)
      rw [names_withRecords, names_withRecords] at hname
      rcases hname with hname | hname
      · obtain ⟨e, he, heq⟩ := List.mem_map.mp hname
        obtain ⟨l, hl, hrel⟩ := h.locRemote e he
        exact ⟨l, hl, heq.symm.trans hrel.symm⟩
      · obtain ⟨e, he, heq⟩ := List.mem_map.mp hname
        obtain ⟨l, hl, hrel⟩ := h.locLocal e he
        exact ⟨l, hl, heq.symm.trans hrel.symm⟩
    obtain ⟨attr, hattr, hclass⟩ := hclass l hl f hf hrel
    exact ⟨l, attr, hl, hrel, hattr, hclass⟩
  · intro l hl flag
    constructor
    · rintro ⟨f, hf, hname, attr, hattr, rfl⟩
      obtain ⟨attr', hattr', hclass⟩ := hclass l hl f hf hname
      rw [hattr] at hattr'
      rwa [Option.some.inj hattr']
    · intro hflag
      -- a flag is there only for what one of the walks has found
      have hmem : rel l ∈ names m.files := by
        rw [hnames, names_withRecords, names_withRecords, ← value_ne_none_iff h.nodupRemote,
          ← value_ne_none_iff h.nodupLocal, h.valueRemote l hl, h.valueLocal l hl]
        exact hflag.found
      obtain ⟨f, hf, hname⟩ := List.mem_map.mp hmem
      obtain ⟨attr, hattr, hclass⟩ := hclass l hl f hf hname
      exact ⟨f, hf, hname, attr, hattr, hclass.unique hflag⟩

/-! ## Identical trees -/

/-- The same places, with the same sizes and times of the files. -/
def Same (R L : Tree) : Prop := ∀ l, (R.find l).map Node.shape = (L.find l).map Node.shape

/-- The two walks find the same names, and every regular file is marked as equal. -/
def ComparesEqual (env : Env) (R L : Tree) : Prop :=
  ∃ remoteFiles localFiles m, getRemoteFiles env R = some remoteFiles ∧
    getLocalFiles env L = some localFiles ∧
    (∀ name, name ∈ remoteFiles.map Prod.fst ↔ name ∈ localFiles.map Prod.fst) ∧
    mergeFound remoteFiles localFiles = some m ∧ ∀ l, R.IsFile l → Marked m l flagFileEqual

theorem Same.find_none_iff {R L : Tree} (h : Same R L) (l : Loc) : R.find l = none ↔ L.find l = none := by
  rw [← Option.map_eq_none_iff (f := Node.shape), h l, Option.map_eq_none_iff]

theorem Same.file {R L : Tree} (h : Same R L) {l : Loc} {content : List UInt8} {mtime : Nat}
    (hr : R.find l = some (.file content mtime)) :
    ∃ content', L.find l = some (.file content' mtime) ∧ content.length = content'.length := by
  have hl := h l
  rw [hr, Option.map_some, eq_comm, Option.map_eq_some_iff] at hl
  obtain ⟨node, hnode, hshape⟩ := hl
  cases node with
  | dir size mtime => cases hshape
  | file content' mtime' =>
    obtain ⟨hlen, rfl⟩ := Prod.mk.inj (Option.some.inj hshape)
    exact ⟨content', hnode, hlen.symm⟩

/-- **Identical trees compare as identical exactly when no name begins with a dot.** -/
theorem identical_trees_equal_iff (env : Env) (R L : Tree) (hsame : Same R L) :
    ComparesEqual env R L ↔ ∀ l, R.find l ≠ none → ∀ name ∈ l, name.head? ≠ some '.' := by
  obtain ⟨remoteFiles, localFiles, m, h, -, hm, -, -, hmarked⟩ := run_marked env R L
  constructor
  · rintro ⟨remoteFiles', localFiles', m', hremote, hlocal, hnames, -, -⟩ l hfind
    obtain rfl := Option.some.inj (h.remote.symm.trans hremote)
    obtain rfl := Option.some.inj (h.here.symm.trans hlocal)
    obtain ⟨node, hnode⟩ := Option.ne_none_iff_exists'.mp hfind
    have hl := Tree.find_named hnode
    rw [← visible_iff hl.2]
    exact ((h.mem_local hl).mp ((hnames (rel l)).mp ((h.mem_remote hl).mpr hfind))).2
  · intro hvisible
    have hvisible : ∀ l, IsLoc l → R.find l ≠ none → Visible l := fun l hl hfind =>
      (visible_iff hl.2).mpr (hvisible l hfind)
    refine ⟨remoteFiles, localFiles, m, h.remote, h.here, fun name => ?_, hm, ?_⟩
    · constructor
      · intro hname
        obtain ⟨e, he, rfl⟩ := List.mem_map.mp hname
        obtain ⟨l, hl, hrel⟩ := h.locRemote e he
        rw [← hrel] at hname ⊢
        have hfind := (h.mem_remote hl).mp hname
        exact (h.mem_local hl).mpr ⟨fun hnone => hfind ((hsame.find_none_iff l).mpr hnone),
          hvisible l hl hfind⟩
      · intro hname
        obtain ⟨e, he, rfl⟩ := List.mem_map.mp hname
        obtain ⟨l, hl, hrel⟩ := h.locLocal e he
        rw [← hrel] at hname ⊢
        have hfind := ((h.mem_local hl).mp hname).1
        exact (h.mem_remote hl).mpr fun hnone => hfind ((hsame.find_none_iff l).mp hnone)
    · rintro l ⟨content, mtime, hr⟩
      have hl := Tree.find_named hr
      obtain ⟨content', hlocal, hlen⟩ := hsame.file hr
      rw [hmarked l hl, remoteRecord, localRecord, if_pos (hvisible l hl (by simp [hr])), hr, hlocal]
      exact .equal (Nat.le_add_right ..) (Nat.le_add_right ..) hlen

/-- One empty file below the base directories. -/
def oneFile (name : QString) (h : IsName name) : Tree where
  entries := [([name], .file [] 100)]
  nodup := List.nodup_singleton _
  named := by simpa [IsLoc] using h
  closed := by simp

def homeEnv : Env := ⟨['/', 'h'], ['/', 'l'], 0xF, by decide⟩

def plainFile : Tree := oneFile ['a'] (by decide)

theorem identical_trees_equal_plain : Same plainFile plainFile ∧ ComparesEqual homeEnv plainFile plainFile := by
  refine ⟨fun _ => rfl, (identical_trees_equal_iff homeEnv plainFile plainFile fun _ => rfl).mpr ?_⟩
  intro l hfind name hname
  obtain ⟨node, hnode⟩ := Option.ne_none_iff_exists'.mp hfind
  have hmem := Tree.mem_entries_iff.mpr hnode
  simp only [plainFile, oneFile, List.mem_singleton, Prod.mk.injEq] at hmem
  rw [hmem.1, List.mem_singleton] at hname
  rw [hname]
  decide

def hiddenFile : Tree := oneFile ['.', 'a'] (by decide)

theorem identical_trees_differ : Same hiddenFile hiddenFile ∧
    getRemoteFiles homeEnv hiddenFile = some [(['.', 'a'], ⟨0xF, 0, 100⟩)] ∧
    getLocalFiles homeEnv hiddenFile = some [] ∧ ¬ComparesEqual homeEnv hiddenFile hiddenFile := by
  -- Only the remote walk finds a hidden file.
  have hremote : getRemoteFiles homeEnv hiddenFile = some [(['.', 'a'], ⟨0xF, 0, 100⟩)] := by decide
  have hlocal : getLocalFiles homeEnv hiddenFile = some [] := by decide
  refine ⟨fun _ => rfl, hremote, hlocal, ?_⟩
  rintro ⟨remoteFiles, localFiles, -, hremote', hlocal', hnames, -, -⟩
  rw [hremote] at hremote'
  rw [hlocal] at hlocal'
  rw [← Option.some.inj hremote', ← Option.some.inj hlocal'] at hnames
  simpa using hnames ['.', 'a']

end NullFxp.Sync
