import NullFxp.Lib.StackWalk
import NullFxp.Sync.Merge
import NullFxp.Sync.Tree

/-!
# The walk over the two sides

`SyncWalker::getRemoteFiles` and `SyncWalker::getLocalFiles` go through the directories with a
stack of paths, one over SFTP and one over `QDir`. What they find is compared by the path relative
to the base directory.
-/

open scoped List
open NullFxp.Transportor (joinPath components_joinPath)

namespace NullFxp.Sync

/-- What the two walks depend on, besides the trees. -/
structure Env where
  remoteBasePath : QString
  localBasePath : QString
  /-- `flags` of the attributes as the server sends them: bits of the protocol only -/
  wireFlags : Nat
  clear : wireFlags &&& diffBits = 0

/-- The place that a path leads to. -/
def resolve (base path : QString) : Option Loc :=
  if components base <+: components path then
    some ((components path).drop (components base).length)
  else none

def dot : QString := ['.']

def dotdot : QString := ['.', '.']

/-- A directory as the system lists it, with `see` as the filter. -/
def listing (see : QString → Bool) (T : Tree) (base path : QString) : Option (List (QString × Node)) := do
  let d ← resolve base path
  if T.isDir d then
    some (((dot, .dir 0 0) :: (dotdot, .dir 0 0) :: T.list d).filter fun e => see e.1)
  else none

/-- `libssh2_sftp_opendir`, and `libssh2_sftp_readdir` up to the end -/
def readdir (T : Tree) (base path : QString) : Option (List (QString × Node)) :=
  listing (fun _ => true) T base path

def isHidden (name : QString) : Bool := name ≠ dot && name ≠ dotdot && name.head? = some '.'

/-- `QDir::entryList()`: no filter is set, so hidden entries are left out. -/
def entryList (T : Tree) (base path : QString) : Option (List (QString × Node)) :=
  listing (fun name => !isHidden name) T base path

/-- `QString::right` -/
def right (s : QString) (n : Nat) : QString := s.drop (s.length - n)

/-- `file.right(file.length() - base.length() - 1)` -/
def relative (base file : QString) : QString := right file (file.length - base.length - 1)

/-- The loop over `dirStack`; the top of the stack comes first. -/
def walkLoop (list : QString → Option (List (QString × Node))) (attrOf : Node → Attributes)
    (base : QString) : Nat → List QString → Option (List (QString × Attributes))
  | _, [] => some []
  | 0, _ :: _ => none
  | fuel + 1, currDir :: dirStack =>
    match list currDir with
    | none => walkLoop list attrOf base fuel dirStack
    | some entries =>
      let entries := entries.filter fun e => e.1 ≠ dot ∧ e.1 ≠ dotdot
      let pushed := (entries.filter fun e => e.2.isDir).map fun e => childPath currDir e.1
      (walkLoop list attrOf base fuel (pushed.reverse ++ dirStack)).map fun files =>
        (entries.map fun e => (relative base (childPath currDir e.1), attrOf e.2)) ++ files

/-- `FLAG_REMOTE_FILE` is set before the attributes are copied over it. -/
def Env.remoteAttr (env : Env) (node : Node) : Attributes := ⟨env.wireFlags, node.size, node.mtime⟩

/-- `QFileInfoToLIBSSH2Attribute`, and `FLAG_LOCAL_FILE` -/
def localAttr (node : Node) : Attributes := ⟨0xF ||| flagLocalFile, node.size, node.mtime⟩

/-- The stack has room for every directory of the tree. -/
def fuelFor (T : Tree) : Nat := T.entries.length + 1

def getRemoteFiles (env : Env) (R : Tree) : Option (List (QString × Attributes)) :=
  walkLoop (readdir R env.remoteBasePath) env.remoteAttr env.remoteBasePath (fuelFor R)
    [env.remoteBasePath]

def getLocalFiles (env : Env) (L : Tree) : Option (List (QString × Attributes)) :=
  walkLoop (entryList L env.localBasePath) localAttr env.localBasePath (fuelFor L) [env.localBasePath]

/-! ## Relative names -/

/-- The name of a place in the lists of the walks. -/
def rel (l : Loc) : QString := (joinPath [] l).drop 1

theorem joinPath_eq_append (base : QString) (l : Loc) : joinPath base l = base ++ joinPath [] l := by
  induction l using List.reverseRecOn with
  | nil => simp [joinPath]
  | append_singleton l name ih =>
    simp only [joinPath, List.foldl_append, List.foldl_cons, List.foldl_nil] at ih ⊢
    rw [ih, childPath, childPath, List.append_assoc]

theorem childPath_joinPath (base : QString) (l : Loc) (name : QString) :
    childPath (joinPath base l) name = joinPath base (l ++ [name]) := by
  simp [joinPath]

theorem joinPath_cons (name : QString) (l : Loc) :
    joinPath [] (name :: l) = '/' :: (name ++ joinPath [] l) := by
  show joinPath ('/' :: name) l = _
  rw [joinPath_eq_append, List.cons_append]

theorem relative_childPath (base name : QString) : relative base (childPath base name) = name := by
  have hlen : (base ++ '/' :: name).length - ((base ++ '/' :: name).length - base.length - 1) =
      base.length + 1 := by
    rw [List.length_append, List.length_cons]
    omega
  rw [relative, right, childPath, hlen, List.drop_append, Nat.add_sub_cancel_left,
    List.drop_of_length_le (by omega), List.nil_append, List.drop_one, List.tail_cons]

theorem childPath_rel (base : QString) {l : Loc} (hl : l ≠ []) :
    childPath base (rel l) = joinPath base l := by
  obtain ⟨name, l, rfl⟩ := List.exists_cons_of_ne_nil hl
  rw [joinPath_eq_append, childPath, rel, joinPath_cons, List.drop_one, List.tail_cons]

theorem relative_joinPath (base : QString) {l : Loc} (hl : l ≠ []) :
    relative base (joinPath base l) = rel l := by
  rw [← childPath_rel base hl, relative_childPath]

theorem resolve_joinPath (base : QString) {l : Loc} (hl : ∀ name ∈ l, IsName name) :
    resolve base (joinPath base l) = some l := by
  rw [resolve, components_joinPath base l hl, if_pos (List.prefix_append _ _), List.drop_left]

theorem rel_inj {l l' : Loc} (hl : IsLoc l) (hl' : IsLoc l') (h : rel l = rel l') : l = l' := by
  have hpath : joinPath [] l = joinPath [] l' := by
    rw [← childPath_rel [] hl.1, ← childPath_rel [] hl'.1, h]
  have hl := resolve_joinPath [] hl.2
  rw [hpath, resolve_joinPath [] hl'.2] at hl
  exact (Option.some.inj hl).symm

theorem not_dot_of_isName {name : QString} (h : IsName name) : name ≠ dot ∧ name ≠ dotdot := h.2.2

/-! ## The loop -/

section Loop

variable (see : QString → Bool) (T : Tree)

/-- The entries of a directory that are seen. -/
def seen (d : Loc) : List (QString × Node) := (T.list d).filter fun e => see e.1

def subdirs (d : Loc) : List Loc := ((seen see T d).filter fun e => e.2.isDir).map fun e => d ++ [e.1]

variable {see T}

theorem mem_seen {d : Loc} {name : QString} {node : Node} :
    (name, node) ∈ seen see T d ↔ T.find (d ++ [name]) = some node ∧ see name = true := by
  rw [seen, List.mem_filter, Tree.mem_list]

theorem isName_of_mem_list {d : Loc} {e : QString × Node} (h : e ∈ T.list d) : IsName e.1 := by
  have hfind : T.find (d ++ [e.1]) = some e.2 := Tree.mem_list.mp h
  exact (Tree.find_named hfind).2 e.1 (by simp)

theorem names_of_isDir {d : Loc} (h : T.isDir d = true) : ∀ name ∈ d, IsName name := by
  rcases Tree.isDir_cases h with rfl | ⟨size, mtime, hfind⟩
  · simp
  · exact (Tree.find_named hfind).2

variable (see) in
theorem listing_eq (base : QString) {d : Loc} (h : T.isDir d = true) :
    ∃ entries, listing see T base (joinPath base d) = some entries ∧
      (entries.filter fun e => e.1 ≠ dot ∧ e.1 ≠ dotdot) = seen see T d := by
  rw [listing, resolve_joinPath base (names_of_isDir h), Option.bind_eq_bind, Option.bind_some,
    if_pos h]
  refine ⟨_, rfl, ?_⟩
  rw [List.filter_comm, List.filter_cons_of_neg (by simp), List.filter_cons_of_neg (by simp)]
  congr 1
  rw [List.filter_eq_self]
  intro e he
  simpa using not_dot_of_isName (isName_of_mem_list he)

theorem mem_subdirs {d c : Loc} : c ∈ subdirs see T d ↔
    ∃ name, c = d ++ [name] ∧ see name = true ∧ T.isDir c = true := by
  simp only [subdirs, List.mem_map, List.mem_filter]
  constructor
  · rintro ⟨⟨name, node⟩, ⟨hseen, hdir⟩, rfl⟩
    obtain ⟨hfind, hsee⟩ := mem_seen.mp hseen
    exact ⟨name, rfl, hsee, (Tree.isDir_of_find hfind).trans hdir⟩
  · rintro ⟨name, rfl, hsee, hdir⟩
    rcases Tree.isDir_cases hdir with hnil | ⟨size, mtime, hfind⟩
    · simp at hnil
    · exact ⟨(name, .dir size mtime), ⟨mem_seen.mpr ⟨hfind, hsee⟩, rfl⟩, rfl⟩

theorem walkLoop_eq (attrOf : Node → Attributes) (base : QString) (fuel : Nat) (dirs : List Loc)
    (hdirs : ∀ d ∈ dirs, T.isDir d = true) :
    walkLoop (listing see T base) attrOf base fuel (dirs.map (joinPath base)) =
      (StackWalk.walk (subdirs see T) fuel dirs).map fun order => order.flatMap fun d =>
        (seen see T d).map fun e => (rel (d ++ [e.1]), attrOf e.2) := by
  induction fuel generalizing dirs with
  | zero => cases dirs <;> rfl
  | succ fuel ih =>
    cases dirs with
    | nil => rfl
    | cons d dirs =>
      obtain ⟨entries, hlisting, hentries⟩ := listing_eq see base (hdirs d List.mem_cons_self)
      have hpushed : (((seen see T d).filter fun e => e.2.isDir).map fun e =>
          childPath (joinPath base d) e.1).reverse ++ dirs.map (joinPath base) =
          ((subdirs see T d).reverse ++ dirs).map (joinPath base) := by
        rw [List.map_append, List.map_reverse, subdirs, List.map_map]
        simp only [Function.comp_def, childPath_joinPath]
      have hfiles (e : QString × Node) :
          relative base (childPath (joinPath base d) e.1) = rel (d ++ [e.1]) := by
        rw [childPath_joinPath, relative_joinPath base (by simp)]
      rw [List.map_cons, walkLoop, StackWalk.walk]
      simp only [hlisting, hentries, hpushed, hfiles]
      rw [ih _ fun c hc => ?_, Option.map_map, Option.map_map]
      · rfl
      · rcases List.mem_append.mp hc with hc | hc
        · obtain ⟨-, -, -, hdir⟩ := mem_subdirs.mp (List.mem_reverse.mp hc)
          exact hdir
        · exact hdirs c (List.mem_cons_of_mem d hc)

/-! ## What is found -/

variable (see T)

/-- The directories from `d` down that are seen. -/
def dirsBelow (d : Loc) : List Loc :=
  ([] :: (T.entries.filter fun e => e.2.isDir).map Prod.fst).filter fun l =>
    d <+: l ∧ (l.drop d.length).all see

variable {see T}

theorem mem_dirsBelow {d l : Loc} :
    l ∈ dirsBelow see T d ↔ T.isDir l = true ∧ ∃ rest, l = d ++ rest ∧ ∀ name ∈ rest, see name = true := by
  have hdir : l ∈ [] :: (T.entries.filter fun e => e.2.isDir).map Prod.fst ↔ T.isDir l = true := by
    rw [List.mem_cons]
    constructor
    · rintro (rfl | h)
      · rfl
      · obtain ⟨⟨l', node⟩, he, rfl⟩ := List.mem_map.mp h
        obtain ⟨he, hdir⟩ := List.mem_filter.mp he
        exact (Tree.isDir_of_find (Tree.mem_entries_iff.mp he)).trans hdir
    · intro h
      rcases Tree.isDir_cases h with rfl | ⟨size, mtime, hfind⟩
      · exact .inl rfl
      · exact .inr (List.mem_map.mpr ⟨(l, .dir size mtime),
          List.mem_filter.mpr ⟨Tree.mem_entries_iff.mpr hfind, rfl⟩, rfl⟩)
  rw [dirsBelow, List.mem_filter, hdir, decide_eq_true_eq]
  refine and_congr_right fun _ => ?_
  constructor
  · rintro ⟨⟨rest, rfl⟩, hsee⟩
    rw [List.drop_left, List.all_eq_true] at hsee
    exact ⟨rest, rfl, hsee⟩
  · rintro ⟨rest, rfl, hsee⟩
    rw [List.drop_left, List.all_eq_true]
    exact ⟨List.prefix_append _ _, hsee⟩

theorem nodup_dirsBelow (d : Loc) : (dirsBelow see T d).Nodup := by
  apply List.Nodup.filter
  rw [List.nodup_cons]
  refine ⟨fun h => ?_, T.nodup.sublist (List.filter_sublist.map Prod.fst)⟩
  obtain ⟨e, he, hnil⟩ := List.mem_map.mp h
  exact (T.named e (List.mem_filter.mp he).1).1 hnil

theorem nodup_subdirs (d : Loc) : (subdirs see T d).Nodup := by
  rw [subdirs, seen]
  refine List.Nodup.map_on ?_ (((T.nodup_list d).filter _).filter _)
  rintro ⟨name, node⟩ h ⟨name', node'⟩ h' he
  obtain rfl : name = name' := by simpa using he
  have hfind := Tree.mem_list.mp (List.mem_filter.mp (List.mem_filter.mp h).1).1
  rw [Tree.mem_list.mp (List.mem_filter.mp (List.mem_filter.mp h').1).1] at hfind
  rw [Option.some.inj hfind]

theorem lists_dirsBelow :
    StackWalk.Lists (subdirs see T) {d | T.isDir d = true} (dirsBelow see T) := by
  intro d hd
  rw [List.perm_ext_iff_of_nodup (nodup_dirsBelow d)]
  · intro l
    rw [List.mem_cons, List.mem_flatMap, mem_dirsBelow]
    constructor
    · rintro ⟨hdir, rest, rfl, hsee⟩
      cases rest with
      | nil => exact .inl (List.append_nil d)
      | cons name rest =>
        rw [List.append_cons] at hdir ⊢
        refine .inr ⟨d ++ [name], mem_subdirs.mpr ⟨name, rfl, hsee name (by simp), ?_⟩, ?_⟩
        · exact Tree.isDir_of_append hdir
        · exact mem_dirsBelow.mpr ⟨hdir, rest, rfl, fun n hn => hsee n (List.mem_cons_of_mem _ hn)⟩
    · rintro (rfl | ⟨c, hc, hl⟩)
      · exact ⟨hd, [], by simp, by simp⟩
      · obtain ⟨name, rfl, hsee, -⟩ := mem_subdirs.mp hc
        obtain ⟨hdir, rest, rfl, hrest⟩ := mem_dirsBelow.mp hl
        refine ⟨hdir, name :: rest, by simp, ?_⟩
        exact List.forall_mem_cons.mpr ⟨hsee, hrest⟩
  · rw [List.nodup_cons]
    constructor
    · intro hmem
      obtain ⟨c, hc, hl⟩ := List.mem_flatMap.mp hmem
      obtain ⟨name, rfl, -, -⟩ := mem_subdirs.mp hc
      obtain ⟨-, rest, hrest, -⟩ := mem_dirsBelow.mp hl
      simp at hrest
    · rw [List.nodup_flatMap]
      refine ⟨fun c _ => nodup_dirsBelow c, (nodup_subdirs d).imp_of_mem ?_⟩
      intro c c' hc hc' hne l hl hl'
      obtain ⟨name, rfl, -, -⟩ := mem_subdirs.mp hc
      obtain ⟨name', rfl, -, -⟩ := mem_subdirs.mp hc'
      obtain ⟨-, rest, rfl, -⟩ := mem_dirsBelow.mp hl
      obtain ⟨-, rest', hrest, -⟩ := mem_dirsBelow.mp hl'
      rw [List.append_assoc, List.append_assoc, List.append_cancel_left_eq] at hrest
      exact hne (by rw [(List.cons.inj hrest).1])

theorem length_dirsBelow_le (d : Loc) : (dirsBelow see T d).length ≤ fuelFor T := by
  refine Nat.le_trans (List.length_filter_le _ _) ?_
  rw [List.length_cons, List.length_map, fuelFor]
  exact Nat.add_le_add_right (List.length_filter_le _ _) 1

theorem flatMap_seen_perm :
    ((dirsBelow see T []).flatMap fun d => (seen see T d).map fun e => (d ++ [e.1], e.2)) ~
      T.entries.filter fun e => e.1.all see := by
  rw [List.perm_ext_iff_of_nodup _ (T.nodup_entries.filter _)]
  · rintro ⟨l, node⟩
    rw [List.mem_flatMap, List.mem_filter, Tree.mem_entries_iff, List.all_eq_true]
    constructor
    · rintro ⟨d, hd, hmem⟩
      obtain ⟨⟨name, node'⟩, he, hpair⟩ := List.mem_map.mp hmem
      obtain ⟨rfl, rfl⟩ := Prod.mk.inj hpair
      obtain ⟨hfind, hsee⟩ := mem_seen.mp he
      obtain ⟨-, rest, rfl, hrest⟩ := mem_dirsBelow.mp hd
      refine ⟨hfind, fun n hn => ?_⟩
      rcases List.mem_append.mp hn with hn | hn
      · exact hrest n hn
      · rwa [List.mem_singleton.mp hn]
    · rintro ⟨hfind, hsee⟩
      have hsplit := List.dropLast_concat_getLast (Tree.find_named hfind).1
      refine ⟨l.dropLast, ?_, ?_⟩
      · exact mem_dirsBelow.mpr ⟨Tree.isDir_parent hfind, l.dropLast, rfl, fun n hn =>
          hsee n ((List.dropLast_subset l) hn)⟩
      · rw [← hsplit] at hfind
        exact List.mem_map.mpr ⟨_, mem_seen.mpr ⟨hfind, hsee _ (List.getLast_mem _)⟩, by rw [hsplit]⟩
  · rw [List.nodup_flatMap]
    refine ⟨fun d _ => ((T.nodup_list d).filter _).map fun e e' he => ?_,
      (nodup_dirsBelow []).imp ?_⟩
    · obtain ⟨hname, hnode⟩ := Prod.mk.inj he
      exact Prod.ext (by simpa using hname) hnode
    · intro d d' hne p hp hp'
      obtain ⟨e, -, rfl⟩ := List.mem_map.mp hp
      obtain ⟨e', -, he⟩ := List.mem_map.mp hp'
      have hloc := congrArg List.dropLast (Prod.mk.inj he).1
      rw [List.dropLast_concat, List.dropLast_concat] at hloc
      exact hne hloc.symm

end Loop

theorem walkLoop_perm (see : QString → Bool) (T : Tree) (attrOf : Node → Attributes) (base : QString) :
    ∃ files, walkLoop (listing see T base) attrOf base (fuelFor T) [base] = some files ∧
      files ~ (T.entries.filter fun e => e.1.all see).map fun e => (rel e.1, attrOf e.2) := by
  have hall : StackWalk.Lists (subdirs see T) {d | T.isDir d = true} (dirsBelow see T) :=
    lists_dirsBelow
  have hnext : ∀ d ∈ {d | T.isDir d = true}, ∀ c ∈ subdirs see T d, c ∈ {d | T.isDir d = true} := by
    intro d _ c hc
    obtain ⟨-, -, -, hdir⟩ := mem_subdirs.mp hc
    exact hdir
  have hroot : ∀ d ∈ [([] : Loc)], d ∈ {d | T.isDir d = true} := by
    intro d hd
    rw [List.mem_singleton.mp hd]
    rfl
  have hfuel : ([([] : Loc)].flatMap (dirsBelow see T)).length ≤ fuelFor T := by
    rw [List.flatMap_singleton]
    exact length_dirsBelow_le []
  obtain ⟨order, hwalk, hperm⟩ := hall.walk_perm hnext hroot hfuel
  rw [List.flatMap_singleton] at hperm
  refine ⟨_, (walkLoop_eq attrOf base (fuelFor T) [[]] (by simp [Tree.isDir])).trans
    (by rw [hwalk, Option.map_some]), ?_⟩
  calc order.flatMap (fun d => (seen see T d).map fun e => (rel (d ++ [e.1]), attrOf e.2))
    _ ~ (dirsBelow see T []).flatMap
          (fun d => (seen see T d).map fun e => (rel (d ++ [e.1]), attrOf e.2)) :=
        hperm.flatMap_right _
    _ = ((dirsBelow see T []).flatMap fun d => (seen see T d).map fun e => (d ++ [e.1], e.2)).map
          fun e => (rel e.1, attrOf e.2) := by
        rw [List.map_flatMap]
        simp only [List.map_map, Function.comp_def]
    _ ~ (T.entries.filter fun e => e.1.all see).map fun e => (rel e.1, attrOf e.2) :=
        flatMap_seen_perm.map _

/-- No name on the way down is hidden. -/
def Visible (l : Loc) : Prop := ∀ name ∈ l, isHidden name = false

instance (l : Loc) : Decidable (Visible l) := inferInstanceAs (Decidable (∀ _ ∈ l, _))

theorem isHidden_iff {name : QString} (h : IsName name) : isHidden name = true ↔ name.head? = some '.' := by
  obtain ⟨hdot, hdotdot⟩ := not_dot_of_isName h
  simp [isHidden, hdot, hdotdot]

theorem visible_iff {l : Loc} (hl : ∀ name ∈ l, IsName name) :
    Visible l ↔ ∀ name ∈ l, name.head? ≠ some '.' := by
  refine forall₂_congr fun name hname => ?_
  rw [← Bool.not_eq_true, ne_eq, isHidden_iff (hl name hname)]

theorem getRemoteFiles_perm (env : Env) (R : Tree) :
    ∃ files, getRemoteFiles env R = some files ∧
      files ~ R.entries.map fun e => (rel e.1, env.remoteAttr e.2) := by
  obtain ⟨files, hwalk, hperm⟩ :=
    walkLoop_perm (fun _ => true) R env.remoteAttr env.remoteBasePath
  refine ⟨files, hwalk, hperm.trans ?_⟩
  rw [List.filter_eq_self.mpr (by simp)]

theorem getLocalFiles_perm (env : Env) (L : Tree) :
    ∃ files, getLocalFiles env L = some files ∧
      files ~ (L.entries.filter fun e => Visible e.1).map fun e => (rel e.1, localAttr e.2) := by
  obtain ⟨files, hwalk, hperm⟩ :=
    walkLoop_perm (fun name => !isHidden name) L localAttr env.localBasePath
  refine ⟨files, hwalk, hperm.trans ?_⟩
  rw [List.filter_congr fun e _ => ?_]
  rw [Bool.eq_iff_iff, List.all_eq_true, decide_eq_true_eq]
  simp [Visible]

end NullFxp.Sync
