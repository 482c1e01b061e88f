import NullFxp.RemoteDirModel.Requests
import NullFxp.Retriver.Complete

/-!
# Deleting a selection

`rm_file_or_directory_recursively` of the two remote views queues one command for each selected row.
The retriever carries the commands out one after the other.
-/

open NullFxp.LibFtp Text
open NullFxp.RemoteDirModel (NetDirNode Protocol)

namespace NullFxp.Retriver

/-! ## The view -/

inductive Pane where
  | tree
  | table

/-- `filterAcceptsRow` of `DirTreeSortFilterModel` and of `DirTableSortFilterModel`. The first
character of an empty name is outside of the string. -/
def filterAcceptsRow (hidden : Bool) (node : NetDirNode) : Pane → Option Bool
  | .tree =>
    if node.fileName.length = 0 ∧ node.fullPath.length = 0 then some false
    else if node.fileName.length = 0 ∧ node.fullPath = ['/'] then some true
    else if node.isDir || node.linkToDir then
      if hidden then some true else node.fileName.head?.map (· ≠ '.')
    else some false
  | .table =>
    if node.fileName.length = 0 ∧ node.fullPath.length = 0 then some false
    else if hidden then some true
    else node.fileName.head?.map (· ≠ '.')

/-- The loop over the rows. The user is asked at the first row that is selected. -/
def removeRows (isRowSelected : Nat → Bool) (yes : Bool) : Bool → List (NetDirNode × Nat) →
    List QString
  | _, [] => []
  | firstWarning, row :: rows =>
    if !isRowSelected row.2 then removeRows isRowSelected yes firstWarning rows
    else if firstWarning && !yes then []
    else row.1.fileName :: removeRows isRowSelected yes false rows

/-- The names that the view queues. `SFTPView` goes through the rows from the last one on. -/
def queued (proto : Protocol) (isRowSelected : Nat → Bool) (yes : Bool) (shown : List NetDirNode) :
    List QString :=
  removeRows isRowSelected yes true (match proto with
    | .sftp => shown.zipIdx.reverse
    | .ftp => shown.zipIdx)

section View

variable {isRowSelected : Nat → Bool} {yes hidden : Bool} {name : QString}

theorem removeRows_asked (rows : List (NetDirNode × Nat)) :
    removeRows isRowSelected yes false rows =
      (rows.filter fun row => isRowSelected row.2).map fun row => row.1.fileName := by
  induction rows with
  | nil => rfl
  | cons row rows ih =>
    unfold removeRows
    split
    · next h => rw [ih, List.filter_cons_of_neg (by simpa using h)]
    · next h =>
      rw [if_neg (by simp), ih, List.filter_cons_of_pos (by simpa using h)]
      rfl

theorem removeRows_first (rows : List (NetDirNode × Nat)) :
    removeRows isRowSelected yes true rows =
      if yes then removeRows isRowSelected yes false rows else [] := by
  induction rows with
  | nil => simp [removeRows]
  | cons row rows ih =>
    unfold removeRows
    split
    · exact ih
    · cases yes <;> simp

theorem mem_queued {proto : Protocol} {shown : List NetDirNode} :
    name ∈ queued proto isRowSelected yes shown ↔
      yes = true ∧ ∃ i nd, shown[i]? = some nd ∧ isRowSelected i = true ∧ nd.fileName = name := by
  have hrows : name ∈ removeRows isRowSelected yes false shown.zipIdx ↔
      ∃ i nd, shown[i]? = some nd ∧ isRowSelected i = true ∧ nd.fileName = name := by
    rw [removeRows_asked, List.mem_map]
    constructor
    · rintro ⟨⟨nd, i⟩, hrow, hname⟩
      obtain ⟨hmem, hsel⟩ := List.mem_filter.mp hrow
      exact ⟨i, nd, List.mem_zipIdx_iff_getElem?.mp hmem, hsel, hname⟩
    · rintro ⟨i, nd, hnd, hsel, hname⟩
      exact ⟨(nd, i), List.mem_filter.mpr ⟨List.mem_zipIdx_iff_getElem?.mpr hnd, hsel⟩, hname⟩
  rw [← hrows]
  unfold queued
  rw [removeRows_first]
  cases yes with
  | false => simp
  | true =>
    cases proto with
    | ftp => simp
    | sftp => simp [removeRows_asked]

theorem head_of_accepted {node : NetDirNode} {pane : Pane}
    (h : filterAcceptsRow false node pane = some true) : node.fileName.head? ≠ some '.' := by
  intro hdot
  have hlen : node.fileName.length ≠ 0 := by
    cases hname : node.fileName with
    | nil => simp [hname] at hdot
    | cons c rest => simp
  cases pane with
  | tree => simp [filterAcceptsRow, hlen, hdot] at h
  | table => simp [filterAcceptsRow, hlen, hdot] at h

end View

/-! ## The retriever -/

/-- How the retriever names what it lists, and what it asks for. -/
def namesOf (codec : Codec) (line : Loc → QString × Entry → Bytes) : Protocol → Names
  | .sftp => sshNames codec
  | .ftp => ftpNames codec line

/-- The walk of the retriever, see `sshRmEx_height` and `ftpRmEx_height` for the depth. -/
def rmEx (names : Names) (proto : Protocol) (listFollows : Bool) (path : QString) (st : Deleting) :
    Deleting :=
  match proto with
  | .sftp => names.sshRmEx st.srv.height path st
  | .ftp => (names.ftpRmEx listFollows st.srv.height path st).2

/-- One round of the retriever's loop, with the child nodes that the parent has by then. There is
none after a failed assertion. -/
def removeCommand (names : Names) (proto : Protocol) (listFollows : Bool) (parentPath : QString)
    (st : Deleting) (c : List NetDirNode × QString) : Deleting :=
  if st.aborted then st
  else rmFileOrDirectoryRecursively (rmEx names proto listFollows) parentPath c.1 c.2 st

/-- A path, or a name, that goes out as it is. -/
structure GoesOut (names : Names) (path : QString) : Prop where
  dir : names.dir path = path
  file : names.file path = path

/-- What the walk does not remove. -/
def Sticks : Protocol → Entry → Prop
  | .sftp => IsSpecial
  | .ftp => IsSpecialOrLink

/-- A name that one command can clear: a directory without such entries, something that is no
directory and does not lead to one, or nothing any more. -/
structure Removable (names : Names) (proto : Protocol) (srv : Server) (parentPath : QString)
    (pl : Loc) (name : QString) : Prop where
  named : IsName name
  goesOut : GoesOut names name
  dir : srv.find pl name = some .dir → NoneBelow srv (pl ++ [name]) (Sticks proto)
  leaf : ∀ e, srv.find pl name = some e → e ≠ .dir → openDir srv (childPath parentPath name) = none

section Retriver

variable {names : Names} {proto : Protocol} (listFollows : Bool) {srv : Server}
  {parentPath name : QString} {pl : Loc} {st : Deleting} {depth : Nat}

theorem openDir_none_sub {srv' : Server} {path : QString} (h : srv'.Sub srv)
    (hnone : openDir srv path = none) : openDir srv' path = none := by
  rw [Option.eq_none_iff_forall_ne_some] at hnone ⊢
  exact fun l hl => hnone l (openDir_sub h hl)

theorem Removable.sub {srv' : Server} (h : Removable names proto srv parentPath pl name)
    (hsub : srv'.Sub srv) : Removable names proto srv' parentPath pl name :=
  ⟨h.named, h.goesOut, fun he => (h.dir (hsub.find he)).sub hsub List.prefix_rfl,
    fun e he hne => openDir_none_sub hsub (h.leaf e (hsub.find he) hne)⟩

theorem Names.Plain.sub {srv' : Server} (h : names.Plain srv) (hsub : srv'.Sub srv) :
    names.Plain srv' :=
  fun dir n e he => h dir n e (hsub.find he)

theorem GoesOut.child (h : GoesOut names parentPath) (hlaw : names.Lawful)
    (hname : GoesOut names name) : GoesOut names (childPath parentPath name) :=
  ⟨by rw [hlaw.dir, h.dir, hname.dir], by rw [hlaw.file, h.file, hname.file]⟩

theorem prune_under_absent (htree : srv.IsTree) (hnone : srv.find pl name = none) :
    srv.prune (under (pl ++ [name])) = srv := by
  nth_rewrite 2 [← Server.prune_none srv]
  refine Server.prune_congr fun d m e he => ?_
  rw [← Bool.not_eq_true, under_iff, List.prefix_concat_iff]
  rintro (heq | hpre)
  · obtain ⟨rfl, hm⟩ := List.append_inj' heq rfl
    obtain rfl := List.singleton_inj.mp hm
    rw [hnone] at he
    cases he
  · have hdir := htree.realDir (htree _ _ _ he) _ hpre
    rw [Server.isDir_concat, hnone] at hdir
    cases hdir

theorem Names.sshRmEx_of_none {path : QString} (h : openDir st.srv (names.dir path) = none) :
    names.sshRmEx depth path st = sshLast (names.dir path) st := by
  cases depth with
  | zero => rfl
  | succ depth =>
    rw [Names.sshRmEx, Names.listing_of_none h]
    rfl

theorem rmEx_absent (hpath : GoesOut names (childPath parentPath name)) (hname : IsName name)
    (hpl : openDir st.srv parentPath = some pl) (hnone : st.srv.find pl name = none) :
    rmEx names proto listFollows (childPath parentPath name) st = st := by
  have hgone : Gone st.srv parentPath name st := by
    refine ⟨Server.Sub.refl _, fun dir hdir => ?_⟩
    obtain rfl := Option.some.inj (hdir.symm.trans (openDir_eq_some.mp hpl).1)
    exact hnone
  have hopen : openDir st.srv (names.dir (childPath parentPath name)) = none := by
    rw [hpath.dir, openDir, hgone.resolve hname .top]
    rfl
  cases proto with
  | sftp =>
    show names.sshRmEx _ _ _ = st
    rw [Names.sshRmEx_of_none hopen, hpath.dir, hgone.sshLast hname .top]
  | ftp =>
    show (names.ftpRmEx _ _ _ _).2 = st
    rw [Names.ftpRmEx_of_none hopen, hpath.file, unlink, hgone.removeAt hname .top]

theorem rmEx_leaf (hpath : GoesOut names (childPath parentPath name))
    (hpl : openDir st.srv parentPath = some pl) {e : Entry} (he : st.srv.find pl name = some e)
    (hne : e ≠ .dir) (hopen : openDir st.srv (childPath parentPath name) = none) :
    rmEx names proto listFollows (childPath parentPath name) st =
      { st with srv := st.srv.remove pl name, removed := st.removed ++ [pl ++ [name]] } := by
  have hopen' : openDir st.srv (names.dir (childPath parentPath name)) = none := by
    rwa [hpath.dir]
  cases proto with
  | sftp =>
    show names.sshRmEx _ _ _ = _
    rw [Names.sshRmEx_of_none hopen', hpath.dir, sshLast,
      rmdir_child_fails hpl he fun h => absurd h hne, if_neg (by simp), unlink_child hpl he hne]
  | ftp =>
    show (names.ftpRmEx _ _ _ _).2 = _
    rw [Names.ftpRmEx_of_none hopen', hpath.file, unlink_child hpl he hne]

theorem Removable.clearable (h : Removable names proto srv parentPath pl name)
    (hplain : names.Plain srv) (hparent : GoesOut names parentPath)
    (he : srv.find pl name = some .dir)
    (hopen : openDir (srv.prune (below (pl ++ [name]))) parentPath = some pl) :
    Clearable names (Sticks proto) srv parentPath name pl := by
  have hsticks : Sticks proto .special := by
    cases proto with
    | sftp => rfl
    | ftp => exact .inl rfl
  refine ⟨h.dir he, fun d n e hfind hroot => ?_, by rwa [hparent.dir], by rwa [hparent.file]⟩
  have hspecial : e ≠ .special := by
    rintro rfl
    rcases List.prefix_concat_iff.mp hroot with heq | hroot
    · obtain ⟨rfl, hn⟩ := List.append_inj' heq rfl
      obtain rfl := List.singleton_inj.mp hn
      cases hfind.symm.trans he
    · exact h.dir he d n .special hroot hfind hsticks
  obtain ⟨hshown, hdir, hfile⟩ := hplain d n e hfind hspecial
  exact ⟨n, hshown, Names.isDots_of_isName (Server.find_isName hfind), hfile, fun _ => hdir⟩

/-- **One command clears its name**, and nothing else. -/
theorem rmEx_clears (hlaw : names.Lawful) (hplain : names.Plain st.srv)
    (hparent : GoesOut names parentPath) (habort : st.aborted = false) (htree : st.srv.IsTree)
    (hopen : openDir (st.srv.prune (below (pl ++ [name]))) parentPath = some pl)
    (h : Removable names proto st.srv parentPath pl name) :
    Clears (pl ++ [name]) st (rmEx names proto listFollows (childPath parentPath name) st) := by
  have hpath := hparent.child hlaw h.goesOut
  have hpl := openDir_sub (Server.prune_sub _ _) hopen
  have hshallow : Shallow st.srv ((pl ++ [name]).length + st.srv.height) := fun dir n e he =>
    Nat.lt_add_left _ (shallow_height st.srv dir n e he)
  cases he : st.srv.find pl name with
  | none =>
    rw [rmEx_absent listFollows hpath h.named hpl he]
    exact ⟨(prune_under_absent htree he).symm, rfl⟩
  | some e =>
    by_cases hdir : e = .dir
    · subst hdir
      have hclear := h.clearable hplain hparent he hopen
      have hshown := (hplain pl name .dir he (by simp)).1
      cases proto with
      | sftp => exact Names.sshRmEx_clears hlaw htree he hshown hclear hshallow
      | ftp =>
        obtain ⟨st', heq, hclears⟩ :=
          Names.ftpRmEx_clears listFollows hlaw habort htree he hshown hclear hshallow
        show Clears _ _ (names.ftpRmEx _ _ _ _).2
        rw [heq]
        exact hclears
    · rw [rmEx_leaf listFollows hpath hpl he hdir (h.leaf e he hdir)]
      exact ⟨prune_under_leaf htree he hdir, rfl⟩

/-- The names of the queue that are no system directories. -/
def taken (parentPath : QString) (names : List QString) : List QString :=
  names.filter fun name => !sysDirs.contains (childPath parentPath name)

/-- The child node of a command, which has not been dropped before its turn. -/
def HasNode (parentPath : QString) (c : List NetDirNode × QString) : Prop :=
  (∃ nd ∈ c.1, nd.fileName = c.2) ∧ ∀ nd ∈ c.1, nd.fullPath = childPath parentPath nd.fileName

theorem removeCommand_eq {c : List NetDirNode × QString} (hnode : HasNode parentPath c)
    (habort : st.aborted = false) :
    removeCommand names proto listFollows parentPath st c =
      if sysDirs.contains (childPath parentPath c.2) then st
      else rmEx names proto listFollows (childPath parentPath c.2) st := by
  unfold removeCommand rmFileOrDirectoryRecursively
  rw [if_neg (by simp [habort])]
  split
  · rfl
  cases hfind : c.1.find? fun childItem => childItem.fileName == c.2 with
  | none =>
    obtain ⟨nd, hnd, hname⟩ := hnode.1
    exact absurd (List.find?_eq_none.mp hfind nd hnd) (by simp [hname])
  | some nd =>
    have hname := List.find?_some hfind
    rw [beq_iff_eq] at hname
    show rmEx names proto listFollows nd.fullPath st = _
    rw [hnode.2 nd (List.mem_of_find?_eq_some hfind), hname]

/-- **A run of commands clears their names.** By induction on the queue; `done` is what earlier
commands have cleared, and `all` what the path of the parent has to stay clear of. -/
theorem removeCommands_clear {all : List QString} (hlaw : names.Lawful) (hplain : names.Plain srv)
    (hparent : GoesOut names parentPath) (htree : srv.IsTree)
    (hopen : openDir (srv.prune (ofChildren pl all)) parentPath = some pl)
    (queue : List (List NetDirNode × QString)) (hnode : ∀ c ∈ queue, HasNode parentPath c)
    (hall : ∀ name ∈ taken parentPath (queue.map Prod.snd), name ∈ all)
    (h : ∀ name ∈ all, Removable names proto srv parentPath pl name)
    (done : List QString) (hdone : ∀ name ∈ done, name ∈ all) (st : Deleting)
    (habort : st.aborted = false) (hst : st.srv = srv.prune (ofChildren pl done)) :
    (queue.foldl (removeCommand names proto listFollows parentPath) st).srv =
        srv.prune (ofChildren pl (done ++ taken parentPath (queue.map Prod.snd))) ∧
      (queue.foldl (removeCommand names proto listFollows parentPath) st).aborted = false := by
  induction queue generalizing done st with
  | nil => simpa [taken] using ⟨hst, habort⟩
  | cons c queue ih =>
    obtain ⟨hnodec, hnode⟩ := List.forall_mem_cons.mp hnode
    rw [List.map_cons, taken] at hall
    rw [List.foldl_cons, removeCommand_eq listFollows hnodec habort, List.map_cons, taken]
    split
    · next hsys =>
      rw [List.filter_cons_of_neg (by simpa using hsys)] at hall ⊢
      exact ih hnode hall done hdone _ habort hst
    · next hsys =>
      rw [List.filter_cons_of_pos (by simpa using hsys)] at hall ⊢
      obtain ⟨hallc, hall⟩ := List.forall_mem_cons.mp hall
      rw [List.append_cons]
      have htree' : st.srv.IsTree := by
        rw [hst]
        exact htree.prune (closed_ofChildren _ _)
      have hopen' : openDir (st.srv.prune (below (pl ++ [c.2]))) parentPath = some pl := by
        rw [hst, Server.prune_prune]
        refine openDir_sub (Server.prune_sub_prune fun l hl => ?_) hopen
        rw [Bool.or_eq_true, ofChildren_iff, below_iff] at hl
        rw [ofChildren_iff]
        rcases hl with ⟨name, hname, hpre⟩ | hl
        · exact ⟨name, hdone name hname, hpre⟩
        · exact ⟨c.2, hallc, hl.1⟩
      have hsub : st.srv.Sub srv := hst ▸ Server.prune_sub _ _
      have hclears := rmEx_clears listFollows hlaw (hplain.sub hsub) hparent habort htree' hopen'
        ((h c.2 hallc).sub hsub)
      refine ih hnode hall (done ++ [c.2]) ?_ _ (hclears.aborted.trans habort) ?_
      · intro name hname
        rcases List.mem_append.mp hname with hname | hname
        · exact hdone name hname
        · exact List.mem_singleton.mp hname ▸ hallc
      · rw [hclears.srv, hst, Server.prune_prune]
        refine congrArg srv.prune (funext fun l => ?_)
        simp [ofChildren]

end Retriver

/-! ## From the selection to the server -/

/-- The entry is at or below a row that is selected, and that is no system directory. -/
def BelowSelected (isRowSelected : Nat → Bool) (shown : List NetDirNode) (parentPath : QString)
    (pl : Loc) (l : Loc) : Prop :=
  ∃ i nd, shown[i]? = some nd ∧ isRowSelected i = true ∧
    sysDirs.contains (childPath parentPath nd.fileName) = false ∧ pl ++ [nd.fileName] <+: l

/-- A row of the table for what is in `/a`. -/
def rowOf (name : QString) (permissions : Nat) : NetDirNode :=
  { NetDirNode.new with
    fileName := name
    fullPath := childPath ['/', 'a'] name
    attrib := { NetDirNode.new.attrib with permissions := permissions } }

end NullFxp.Retriver
