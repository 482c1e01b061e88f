import NullFxp.RemoteDirModel.Node
import NullFxp.Retriver.Server

/-!
# Recursive delete

`rm_file_or_directory_recursively` of the SSH and of the FTP retriever. Listings and `CWD` follow
a link at the end of a path; removing acts on the entry itself.
-/

open NullFxp.RemoteDirModel (NetDirNode)

namespace NullFxp.Retriver

/-- The server, and what was removed from it, by location. -/
structure Deleting where
  srv : Server
  removed : List Loc
  /-- an assertion has failed -/
  aborted : Bool

/-- Remove the entry at a path when the server allows it: `test` is what the request is for. -/
def removeAt (test : Server → Loc → Entry → Bool) (path : QString) (st : Deleting) :
    Bool × Deleting :=
  match st.srv.resolve false path with
  | none => (false, st)
  | some l =>
    match l.getLast? with
    | none => (false, st)
    | some name =>
      match st.srv.find l.dropLast name with
      | none => (false, st)
      | some e =>
        if test st.srv l e then
          (true, { st with
            srv := st.srv.remove l.dropLast name
            removed := st.removed ++ [l] })
        else (false, st)

/-- `libssh2_sftp_unlink` and `DELE` -/
def unlink : QString → Deleting → Bool × Deleting := removeAt fun _ _ e => e ≠ .dir

/-- `libssh2_sftp_rmdir` and `RMD` -/
def rmdir : QString → Deleting → Bool × Deleting :=
  removeAt fun srv l e => e = .dir && srv.children l = []

/-- The directory that a path leads to. -/
def openDir (srv : Server) (path : QString) : Option Loc :=
  (srv.resolve true path).bind fun l => if srv.isDir l then some l else none

/-! ## SSH -/

/-- The listing of `path + "/"`: nothing when the directory does not open. -/
def fxpDoLsDir (srv : Server) (path : QString) : List (QString × Entry) :=
  match openDir srv path with
  | none => []
  | some l => srv.children l

/-- One entry of the listing. `rm` removes a directory. -/
def sshEntry (rm : QString → Deleting → Deleting) (path : QString) (st : Deleting)
    (e : QString × Entry) : Deleting :=
  match e.2 with
  | .dir => rm (childPath path e.1) st
  | .reg | .link _ _ => (unlink (childPath path e.1) st).2
  | .special => st

/-- `rmdir`, and `unlink` when that fails -/
def sshLast (path : QString) (st : Deleting) : Deleting :=
  if (rmdir path st).1 then (rmdir path st).2 else (unlink path st).2

/-- `SSHDirRetriver::rm_file_or_directory_recursively_ex`. The source has no limit on the depth:
`sshRmEx_height` shows that none is reached. -/
def sshRmEx : Nat → QString → Deleting → Deleting
  | 0, path, st => sshLast path st
  | depth + 1, path, st =>
    sshLast path
      ((fxpDoLsDir st.srv path).reverse.foldl (sshEntry (sshRmEx depth) path) st)

/-! ## FTP -/

/-- What `LIST -a` shows of a directory, and the parser understands. With a link as its argument
the server lists what the link leads to, or just the link. -/
def lista (listFollows : Bool) (srv : Server) (path : QString) : List (QString × Entry) :=
  match openDir srv path with
  | none => []
  | some l =>
    if listFollows || srv.resolve false path = some l then
      (srv.children l).filter fun e => e.2 ≠ .special
    else []

/-- One entry of the listing: links are left alone, and the directories have to go. -/
def ftpEntry (rm : QString → Deleting → Bool × Deleting) (path : QString) (st : Deleting)
    (e : QString × Entry) : Deleting :=
  if st.aborted then st
  else match e.2 with
    | .link _ _ => st
    | .dir =>
      let (ok, st) := rm (childPath path e.1) st
      if ok then st else { st with aborted := true }
    | _ => (unlink (childPath path e.1) st).2

/-- `LibFtp::rmdir` asserts that the server does it. -/
def ftpLast (path : QString) (st : Deleting) : Bool × Deleting :=
  if st.aborted then (false, st)
  else
    let (ok, st) := rmdir path st
    (ok, if ok then st else { st with aborted := true })

theorem ftpLast_aborted {path : QString} {st : Deleting} (h : st.aborted = true) :
    ftpLast path st = (false, st) := if_pos h

theorem ftpLast_rmdir {path : QString} {st st' : Deleting} {ok : Bool} (h : st.aborted = false)
    (hrmdir : rmdir path st = (ok, st')) :
    ftpLast path st = (ok, if ok then st' else { st' with aborted := true }) := by
  rw [ftpLast, h, hrmdir]
  rfl

/-- `FTPDirRetriver::rm_file_or_directory_recursively_ex`, see `ftpRmEx_height` for the depth -/
def ftpRmEx (listFollows : Bool) : Nat → QString → Deleting → Bool × Deleting
  | 0, path, st => if (openDir st.srv path).isSome then ftpLast path st else unlink path st
  | depth + 1, path, st =>
    if (openDir st.srv path).isSome then
      ftpLast path ((lista listFollows st.srv path).reverse.foldl
        (ftpEntry (ftpRmEx listFollows depth) path) st)
    else unlink path st

/-! ## The command -/

def sysDirs : List QString :=
  ["/usr", "/bin", "/sbin", "/lib", "/etc", "/dev", "/proc", "/mnt", "/sys", "/var", "/media",
    "/lost+found", "/tmp", "/opt", "/lib32", "/lib64", "/home"].map String.toList

/-- The command removes what the first child of that name stands for. The guard looks at the path
of the parent, and the walk starts at the path of the child. -/
def rmFileOrDirectoryRecursively (rmEx : QString → Deleting → Deleting) (parentPath : QString)
    (childNodes : List NetDirNode) (params : QString) (st : Deleting) : Deleting :=
  if sysDirs.contains (childPath parentPath params) then st
  else match childNodes.find? fun childItem => childItem.fileName == params with
    | some childItem => rmEx childItem.fullPath st
    | none => st

/-- `SSHDirRetriver::rm_file_or_directory_recursively` -/
def sshRm (parentPath : QString) (childNodes : List NetDirNode) (params : QString)
    (srv : Server) : Deleting :=
  rmFileOrDirectoryRecursively (sshRmEx srv.height) parentPath childNodes params ⟨srv, [], false⟩

/-- `FTPDirRetriver::rm_file_or_directory_recursively` -/
def ftpRm (listFollows : Bool) (parentPath : QString) (childNodes : List NetDirNode)
    (params : QString) (srv : Server) : Deleting :=
  rmFileOrDirectoryRecursively (fun path st => (ftpRmEx listFollows srv.height path st).2)
    parentPath childNodes params ⟨srv, [], false⟩

/-! ## Inside the selected entry -/

/-- Nothing was removed but at or below `root`, and nothing was added to `srv₀`. -/
structure Inside (srv₀ : Server) (root : Loc) (st : Deleting) : Prop where
  sub : st.srv.Sub srv₀
  removed : ∀ l ∈ st.removed, root <+: l

/-- Whatever is removed at the path is at or below `root`. -/
def RemovesInside (srv₀ : Server) (root : Loc) (path : QString) : Prop :=
  ∀ l, srv₀.resolve false path = some l → root <+: l

/-- And so is the directory that it leads to. -/
def OpensInside (srv₀ : Server) (root : Loc) (path : QString) : Prop :=
  ∀ l, openDir srv₀ path = some l → root <+: l

section Inside

variable {srv₀ : Server} {root : Loc} {path : QString} {st : Deleting}

theorem openDir_eq_some {srv : Server} {path : QString} {l : Loc} :
    openDir srv path = some l ↔ srv.resolve true path = some l ∧ srv.isDir l = true := by
  rw [openDir, Option.bind_eq_some_iff]
  constructor
  · rintro ⟨l', hr, h⟩
    split at h
    · next hd =>
      obtain rfl := Option.some.inj h
      exact ⟨hr, hd⟩
    · cases h
  · rintro ⟨hr, hd⟩
    exact ⟨l, hr, if_pos hd⟩

theorem removeAt_cases (test : Server → Loc → Entry → Bool) (path : QString) (st : Deleting) :
    removeAt test path st = (false, st) ∨
      ∃ dir name e, st.srv.resolve false path = some (dir ++ [name]) ∧
        st.srv.find dir name = some e ∧ test st.srv (dir ++ [name]) e = true ∧
        removeAt test path st = (true, { st with
          srv := st.srv.remove dir name
          removed := st.removed ++ [dir ++ [name]] }) := by
  unfold removeAt
  cases hl : st.srv.resolve false path with
  | none => exact .inl rfl
  | some l =>
    rcases List.eq_nil_or_concat l with rfl | ⟨dir, name, rfl⟩
    · exact .inl rfl
    · simp only [List.concat_eq_append, List.getLast?_concat, List.dropLast_concat]
      cases he : st.srv.find dir name with
      | none => exact .inl rfl
      | some e =>
        simp only
        split
        · next htest => exact .inr ⟨dir, name, e, rfl, he, htest, rfl⟩
        · exact .inl rfl

theorem Inside.removeAt (h : Inside srv₀ root st) (hpath : RemovesInside srv₀ root path)
    (test : Server → Loc → Entry → Bool) : Inside srv₀ root (removeAt test path st).2 := by
  rcases removeAt_cases test path st with heq | ⟨dir, name, e, hr, -, -, heq⟩
  · rw [heq]
    exact h
  · rw [heq]
    refine ⟨(Server.sub_remove st.srv dir name).trans h.sub, fun l hl => ?_⟩
    rcases List.mem_append.mp hl with hl | hl
    · exact h.removed l hl
    · obtain rfl := List.mem_singleton.mp hl
      exact hpath _ (h.sub.resolve hr)

theorem openDir_sub {srv' srv : Server} (h : srv'.Sub srv) {path : QString} {l : Loc}
    (hl : openDir srv' path = some l) : openDir srv path = some l := by
  obtain ⟨hr, hd⟩ := openDir_eq_some.mp hl
  refine openDir_eq_some.mpr ⟨h.resolve hr, ?_⟩
  rcases List.eq_nil_or_concat l with rfl | ⟨d, n, rfl⟩
  · rfl
  · rw [List.concat_eq_append, Server.isDir_concat] at hd ⊢
    exact h.find hd

theorem removesInside_child (hopen : OpensInside srv₀ root path) (hsub : st.srv.Sub srv₀)
    {dir : Loc} (hdir : openDir st.srv path = some dir) {e : QString × Entry}
    (he : e ∈ st.srv.children dir) : RemovesInside srv₀ root (childPath path e.1) := by
  intro l hl
  have hname := Server.find_isName (Server.mem_children.mp he)
  obtain ⟨d, hd, -, e', -, hplace⟩ := Server.resolve_child hname hl
  have hdir₀ := openDir_sub hsub hdir
  obtain rfl : d = dir := Option.some.inj (hd.symm.trans (openDir_eq_some.mp hdir₀).1)
  rw [hplace (.inl rfl)]
  exact (hopen d hdir₀).trans (List.prefix_append d _)

theorem openDir_child {srv : Server} {dir : Loc} {name : QString}
    (hdir : openDir srv path = some dir) (he : srv.find dir name = some .dir) :
    openDir srv (childPath path name) = some (dir ++ [name]) := by
  obtain ⟨hr, hd⟩ := openDir_eq_some.mp hdir
  refine openDir_eq_some.mpr ⟨Server.resolve_entry hr hd he fun _ => rfl, ?_⟩
  rw [Server.isDir_concat]
  exact he

theorem opensInside_child (hopen : OpensInside srv₀ root path) (hsub : st.srv.Sub srv₀)
    {dir : Loc} (hdir : openDir st.srv path = some dir) {name : QString}
    (he : (name, .dir) ∈ st.srv.children dir) :
    OpensInside srv₀ root (childPath path name) := by
  intro l hl
  have hdir₀ := openDir_sub hsub hdir
  have hchild := openDir_child hdir₀ (hsub.find (Server.mem_children.mp he))
  obtain rfl : l = dir ++ [name] := Option.some.inj (hl.symm.trans hchild)
  exact (hopen dir hdir₀).trans (List.prefix_append dir _)

theorem mem_fxpDoLsDir {srv : Server} {e : QString × Entry} (he : e ∈ fxpDoLsDir srv path) :
    ∃ dir, openDir srv path = some dir ∧ e ∈ srv.children dir := by
  unfold fxpDoLsDir at he
  split at he
  · exact absurd he List.not_mem_nil
  · next dir hdir => exact ⟨dir, hdir, he⟩

theorem mem_lista {listFollows : Bool} {srv : Server} {e : QString × Entry}
    (he : e ∈ lista listFollows srv path) :
    ∃ dir, openDir srv path = some dir ∧ e ∈ srv.children dir := by
  unfold lista at he
  split at he
  · exact absurd he List.not_mem_nil
  · next dir hdir =>
    split at he
    · exact ⟨dir, hdir, List.mem_of_mem_filter he⟩
    · exact absurd he List.not_mem_nil

theorem lista_not_special {listFollows : Bool} {srv : Server} {e : QString × Entry}
    (he : e ∈ lista listFollows srv path) : e.2 ≠ .special := by
  unfold lista at he
  split at he
  · exact absurd he List.not_mem_nil
  · split at he
    · simpa using List.of_mem_filter he
    · exact absurd he List.not_mem_nil

theorem Inside.sshLast (h : Inside srv₀ root st) (hpath : RemovesInside srv₀ root path) :
    Inside srv₀ root (sshLast path st) := by
  unfold Retriver.sshLast
  split
  · exact h.removeAt hpath _
  · exact h.removeAt hpath _

/-- **The SSH walk stays inside what it starts in.** -/
theorem Inside.sshRmEx {depth : Nat} (h : Inside srv₀ root st)
    (hpath : RemovesInside srv₀ root path) (hopen : OpensInside srv₀ root path) :
    Inside srv₀ root (sshRmEx depth path st) := by
  induction depth generalizing path st with
  | zero => exact h.sshLast hpath
  | succ depth ih =>
    rw [Retriver.sshRmEx]
    refine Inside.sshLast (List.foldlRecOn _ _ h fun st' hst' e he => ?_) hpath
    obtain ⟨dir, hdir, he⟩ := mem_fxpDoLsDir (List.mem_reverse.mp he)
    have hchild := removesInside_child hopen h.sub hdir he
    obtain ⟨name, e⟩ := e
    cases e with
    | dir => exact ih hst' hchild (opensInside_child hopen h.sub hdir he)
    | reg => exact hst'.removeAt hchild _
    | link absolute target => exact hst'.removeAt hchild _
    | special => exact hst'

theorem Inside.abort (h : Inside srv₀ root st) : Inside srv₀ root { st with aborted := true } :=
  ⟨h.sub, h.removed⟩

theorem Inside.ftpLast (h : Inside srv₀ root st) (hpath : RemovesInside srv₀ root path) :
    Inside srv₀ root (ftpLast path st).2 := by
  have hrmdir : Inside srv₀ root (rmdir path st).2 := h.removeAt hpath _
  unfold Retriver.ftpLast
  split
  · exact h
  · simp only
    split
    · exact hrmdir
    · exact hrmdir.abort

/-- **The FTP walk stays inside what it starts in.** -/
theorem Inside.ftpRmEx {listFollows : Bool} {depth : Nat} (h : Inside srv₀ root st)
    (hpath : RemovesInside srv₀ root path) (hopen : OpensInside srv₀ root path) :
    Inside srv₀ root (ftpRmEx listFollows depth path st).2 := by
  induction depth generalizing path st with
  | zero =>
    rw [Retriver.ftpRmEx]
    split
    · exact h.ftpLast hpath
    · exact h.removeAt hpath _
  | succ depth ih =>
    rw [Retriver.ftpRmEx]
    split
    · refine Inside.ftpLast (List.foldlRecOn _ _ h fun st' hst' e he => ?_) hpath
      obtain ⟨dir, hdir, he⟩ := mem_lista (List.mem_reverse.mp he)
      have hchild := removesInside_child hopen h.sub hdir he
      unfold ftpEntry
      split
      · exact hst'
      · obtain ⟨name, e⟩ := e
        cases e with
        | dir =>
          have hrm := ih hst' hchild (opensInside_child hopen h.sub hdir he)
          simp only
          split
          · exact hrm
          · exact hrm.abort
        | reg => exact hst'.removeAt hchild _
        | link absolute target => exact hst'
        | special => exact hst'.removeAt hchild _
    · exact h.removeAt hpath _

end Inside

/-! ## The depth -/

section Depth

variable {srv : Server} {path : QString} {st : Deleting} {depth : Nat}

/-- Every directory that the path leads to is so deep that `depth` levels are enough. -/
def DeepEnough (srv : Server) (depth : Nat) (path : QString) : Prop :=
  ∀ dir, openDir srv path = some dir → srv.height ≤ dir.length + depth

theorem DeepEnough.child {dir : Loc} {name : QString} (h : DeepEnough srv (depth + 1) path)
    (hdir : openDir srv path = some dir) (he : srv.find dir name = some .dir) :
    DeepEnough srv depth (childPath path name) := by
  intro l hl
  obtain rfl : l = dir ++ [name] := Option.some.inj (hl.symm.trans (openDir_child hdir he))
  have := h dir hdir
  rw [List.length_append, List.length_singleton]
  omega

theorem DeepEnough.children (h : DeepEnough srv 0 path) (hsub : st.srv.Sub srv) {dir : Loc}
    (hdir : openDir st.srv path = some dir) : st.srv.children dir = [] := by
  by_contra hne
  obtain ⟨⟨name, e⟩, he⟩ := List.exists_mem_of_ne_nil _ hne
  have he := Server.mem_children.mpr (hsub.find (Server.mem_children.mp he))
  have hlt := Server.length_lt_height (List.ne_nil_of_mem he)
  have hle := h dir (openDir_sub hsub hdir)
  omega

theorem inside_nil (hsub : st.srv.Sub srv) : Inside srv [] st :=
  ⟨hsub, fun _ _ => List.nil_prefix⟩

theorem sshRmEx_sub (hsub : st.srv.Sub srv) : (sshRmEx depth path st).srv.Sub srv :=
  ((inside_nil hsub).sshRmEx (fun _ _ => List.nil_prefix) fun _ _ => List.nil_prefix).sub

theorem ftpRmEx_sub {listFollows : Bool} (hsub : st.srv.Sub srv) :
    (ftpRmEx listFollows depth path st).2.srv.Sub srv :=
  ((inside_nil hsub).ftpRmEx (fun _ _ => List.nil_prefix) fun _ _ => List.nil_prefix).sub

theorem removeAt_sub {test : Server → Loc → Entry → Bool} (hsub : st.srv.Sub srv) :
    (removeAt test path st).2.srv.Sub srv :=
  ((inside_nil hsub).removeAt (fun _ _ => List.nil_prefix) test).sub

theorem foldl_congr_keeps {α β : Type} {P : β → Prop} {f g : β → α → β} {l : List α} {b : β}
    (hstep : ∀ b a, a ∈ l → P b → P (f b a)) (heq : ∀ b a, a ∈ l → P b → f b a = g b a)
    (hb : P b) : l.foldl f b = l.foldl g b := by
  induction l generalizing b with
  | nil => rfl
  | cons a l ih =>
    rw [List.foldl_cons, List.foldl_cons, ← heq b a List.mem_cons_self hb]
    exact ih (fun b a' ha' => hstep b a' (List.mem_cons_of_mem a ha'))
      (fun b a' ha' => heq b a' (List.mem_cons_of_mem a ha'))
      (hstep b a List.mem_cons_self hb)

theorem sshEntry_sub {e : QString × Entry} (hsub : st.srv.Sub srv) :
    (sshEntry (sshRmEx depth) path st e).srv.Sub srv := by
  obtain ⟨name, e⟩ := e
  cases e with
  | dir => exact sshRmEx_sub hsub
  | reg => exact removeAt_sub hsub
  | link absolute target => exact removeAt_sub hsub
  | special => exact hsub

theorem sshRmEx_succ (hsub : st.srv.Sub srv) (hdeep : DeepEnough srv depth path) :
    sshRmEx (depth + 1) path st = sshRmEx depth path st := by
  induction depth generalizing path st with
  | zero =>
    have hnil : fxpDoLsDir st.srv path = [] := by
      unfold fxpDoLsDir
      split
      · rfl
      · next dir hdir => exact hdeep.children hsub hdir
    rw [sshRmEx, sshRmEx, hnil]
    rfl
  | succ depth ih =>
    rw [sshRmEx, sshRmEx]
    congr 1
    refine foldl_congr_keeps (P := fun st' => st'.srv.Sub srv)
      (fun st' e _ hst' => sshEntry_sub hst') (fun st' e he hst' => ?_) hsub
    obtain ⟨dir, hdir, he⟩ := mem_fxpDoLsDir (List.mem_reverse.mp he)
    obtain ⟨name, e⟩ := e
    cases e with
    | dir =>
      have hfind := hsub.find (Server.mem_children.mp he)
      exact ih hst' (hdeep.child (openDir_sub hsub hdir) hfind)
    | reg => rfl
    | link absolute target => rfl
    | special => rfl

/-- **More depth than the server has changes nothing in the SSH walk.** -/
theorem sshRmEx_height (h : st.srv.height ≤ depth) :
    sshRmEx depth path st = sshRmEx st.srv.height path st := by
  induction h with
  | refl => rfl
  | step h ih =>
    rw [← ih]
    exact sshRmEx_succ (Server.Sub.refl _) fun dir _ => Nat.le_add_left_of_le h

theorem ftpEntry_sub {listFollows : Bool} {e : QString × Entry} (hsub : st.srv.Sub srv) :
    (ftpEntry (ftpRmEx listFollows depth) path st e).srv.Sub srv := by
  unfold ftpEntry
  split
  · exact hsub
  · obtain ⟨name, e⟩ := e
    cases e with
    | dir =>
      have hrm : (ftpRmEx listFollows depth (childPath path name) st).2.srv.Sub srv :=
        ftpRmEx_sub hsub
      simp only
      split
      · exact hrm
      · exact hrm
    | reg => exact removeAt_sub hsub
    | link absolute target => exact hsub
    | special => exact removeAt_sub hsub

theorem ftpRmEx_succ {listFollows : Bool} (hsub : st.srv.Sub srv)
    (hdeep : DeepEnough srv depth path) :
    ftpRmEx listFollows (depth + 1) path st = ftpRmEx listFollows depth path st := by
  induction depth generalizing path st with
  | zero =>
    have hnil : lista listFollows st.srv path = [] := by
      unfold lista
      split
      · rfl
      · next dir hdir => simp [hdeep.children hsub hdir]
    rw [ftpRmEx, ftpRmEx, hnil]
    rfl
  | succ depth ih =>
    rw [ftpRmEx, ftpRmEx]
    congr 2
    refine foldl_congr_keeps (P := fun st' => st'.srv.Sub srv)
      (fun st' e _ hst' => ftpEntry_sub hst') (fun st' e he hst' => ?_) hsub
    obtain ⟨dir, hdir, he⟩ := mem_lista (List.mem_reverse.mp he)
    obtain ⟨name, e⟩ := e
    cases e with
    | dir =>
      have hfind := hsub.find (Server.mem_children.mp he)
      have hrm := ih hst' (hdeep.child (openDir_sub hsub hdir) hfind)
      simp only [ftpEntry, hrm]
    | reg => rfl
    | link absolute target => rfl
    | special => rfl

/-- **More depth than the server has changes nothing in the FTP walk.** -/
theorem ftpRmEx_height {listFollows : Bool} (h : st.srv.height ≤ depth) :
    ftpRmEx listFollows depth path st = ftpRmEx listFollows st.srv.height path st := by
  induction h with
  | refl => rfl
  | step h ih =>
    rw [← ih]
    exact ftpRmEx_succ (Server.Sub.refl _) fun dir _ => Nat.le_add_left_of_le h

end Depth

end NullFxp.Retriver
