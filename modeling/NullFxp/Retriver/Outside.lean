import NullFxp.Retriver.Links

/-!
# Deleting outside the selected entry

When a recursive delete leaves the selected entry, for SSH and for FTP.
-/

open NullFxp.RemoteDirModel (NetDirNode)

namespace NullFxp.Retriver

/-! ## The SSH walk after the selected entry is gone -/

/-- The paths of a walk that starts at `top`. -/
inductive Through (top : QString) : QString → Prop where
  | top : Through top top
  | child {path name : QString} (h : Through top path) (hname : IsName name) :
      Through top (childPath path name)

/-- The selected entry is no longer there. -/
structure Gone (srv : Server) (parentPath name : QString) (st : Deleting) : Prop where
  sub : st.srv.Sub srv
  find : ∀ dir, srv.resolve true parentPath = some dir → st.srv.find dir name = none

section Gone

variable {srv : Server} {parentPath name path : QString} {st : Deleting}

theorem Gone.resolve (h : Gone srv parentPath name st) (hname : IsName name)
    (hpath : Through (childPath parentPath name) path) (follow : Bool) :
    st.srv.resolve follow path = none := by
  induction hpath generalizing follow with
  | top =>
    by_contra hne
    obtain ⟨l, hl⟩ := Option.ne_none_iff_exists'.mp hne
    obtain ⟨dir, hdir, -, e, he, -⟩ := Server.resolve_child hname hl
    rw [h.find dir (h.sub.resolve hdir)] at he
    cases he
  | child hpath hname' ih =>
    by_contra hne
    obtain ⟨l, hl⟩ := Option.ne_none_iff_exists'.mp hne
    obtain ⟨dir, hdir, -⟩ := Server.resolve_child hname' hl
    rw [ih true] at hdir
    cases hdir

theorem Gone.removeAt (h : Gone srv parentPath name st) (hname : IsName name)
    (hpath : Through (childPath parentPath name) path) (test : Server → Loc → Entry → Bool) :
    removeAt test path st = (false, st) := by
  rw [Retriver.removeAt, h.resolve hname hpath]

theorem Gone.sshLast (h : Gone srv parentPath name st) (hname : IsName name)
    (hpath : Through (childPath parentPath name) path) : sshLast path st = st := by
  rw [Retriver.sshLast, rmdir, unlink, h.removeAt hname hpath, h.removeAt hname hpath]
  rfl

theorem Gone.sshRmEx {depth : Nat} (h : Gone srv parentPath name st) (hname : IsName name)
    (hpath : Through (childPath parentPath name) path) : sshRmEx depth path st = st := by
  cases depth with
  | zero => exact h.sshLast hname hpath
  | succ depth =>
    have hnil : fxpDoLsDir st.srv path = [] := by
      rw [fxpDoLsDir, openDir, h.resolve hname hpath]
      rfl
    rw [Retriver.sshRmEx, hnil]
    exact h.sshLast hname hpath

theorem Gone.sshEntry {depth : Nat} {e : QString × Entry} (h : Gone srv parentPath name st)
    (hname : IsName name) (hpath : Through (childPath parentPath name) (childPath path e.1)) :
    sshEntry (Retriver.sshRmEx depth) path st e = st := by
  obtain ⟨n, e⟩ := e
  cases e with
  | dir => exact h.sshRmEx hname hpath
  | reg => exact congrArg Prod.snd (h.removeAt hname hpath _)
  | link absolute target => exact congrArg Prod.snd (h.removeAt hname hpath _)
  | special => rfl

theorem gone_of_remove {pl dir : Loc} {n : QString} {removed : List Loc}
    (hpl : st.srv.resolve true parentPath = some pl) (h : dir ++ [n] = pl ++ [name]) :
    Gone st.srv parentPath name { st with srv := st.srv.remove dir n, removed := removed } := by
  obtain ⟨rfl, rfl⟩ : dir = pl ∧ n = name := by simpa using h
  refine ⟨Server.sub_remove _ _ _, fun dir' hdir' => ?_⟩
  obtain rfl : dir' = dir := Option.some.inj (hdir'.symm.trans hpl)
  by_contra hne
  obtain ⟨e, he⟩ := Option.ne_none_iff_exists'.mp hne
  exact (Server.find_remove.mp he).2 ⟨rfl, rfl⟩

end Gone

/-! ## The first event of the SSH walk -/

section SshOutcome

variable {parentPath name path : QString} {st : Deleting} {pl dir : Loc} {depth : Nat}

/-- The loop over the listing. -/
def sshList : Nat → QString → Deleting → Deleting
  | 0, _, st => st
  | depth + 1, path, st =>
    (fxpDoLsDir st.srv path).reverse.foldl (sshEntry (sshRmEx depth) path) st

theorem sshRmEx_eq : sshRmEx depth path st = sshLast path (sshList depth path st) := by
  cases depth with
  | zero => rfl
  | succ depth => rfl

theorem fxpDoLsDir_eq {srv : Server} (h : openDir srv path = some dir) :
    fxpDoLsDir srv path = srv.children dir := by
  rw [fxpDoLsDir, h]

theorem sshList_of_nil (hopen : openDir st.srv path = some dir)
    (hnil : st.srv.children dir = []) : sshList depth path st = st := by
  cases depth with
  | zero => rfl
  | succ depth =>
    rw [sshList, fxpDoLsDir_eq hopen, hnil]
    rfl

theorem unlink_outcome {n : QString} {e : Entry} (hpl : st.srv.resolve true parentPath = some pl)
    (hopen : openDir st.srv path = some dir) (he : st.srv.find dir n = some e) (hne : e ≠ .dir) :
    Outcome (Gone st.srv parentPath name) (pl ++ [name]) st [.removes (dir ++ [n])]
      (unlink (childPath path n) st).2 := by
  rw [unlink_child hopen he hne]
  exact Outcome.single rfl (gone_of_remove hpl)

theorem sshLast_outcome {n : QString} {events : List Event} {st' : Deleting} (hname : IsName name)
    (hpath : Through (childPath parentPath name) (childPath path n))
    (hopen : openDir st.srv path = some dir) (he : st.srv.find dir n = some .dir)
    (hne : st.srv.children (dir ++ [n]) ≠ [])
    (hlist : Outcome (Gone st.srv parentPath name) (pl ++ [name]) st events st') :
    Outcome (Gone st.srv parentPath name) (pl ++ [name]) st events
      (sshLast (childPath path n) st') := by
  rw [← List.append_nil events]
  refine hlist.trans (fun hsame => ?_) sshLast_grows fun hgone => ?_
  · rw [hsame, sshLast, rmdir_child_fails hopen he fun _ => hne, unlink_child_dir hopen he]
    exact Outcome.same
  · rw [hgone.sshLast hname hpath]
    exact ⟨hgone, rfl⟩

/-- **What the SSH walk does first is the first of its events.** -/
theorem sshList_outcome (hname : IsName name) (hpl : st.srv.resolve true parentPath = some pl)
    (hpath : Through (childPath parentPath name) path) (hopen : openDir st.srv path = some dir) :
    Outcome (Gone st.srv parentPath name) (pl ++ [name]) st (sshEvents st.srv depth dir)
      (sshList depth path st) := by
  induction depth generalizing path dir with
  | zero => exact Outcome.same
  | succ depth ih =>
    rw [sshList, fxpDoLsDir_eq hopen, sshEvents]
    refine Outcome.foldl (fun e he => ?_)
      (fun st' e => sshEntry_grows fun path st => sshRmEx_grows) fun st' e he hgone => ?_
    · obtain ⟨n, e⟩ := e
      have hfind := Server.mem_children.mp (List.mem_reverse.mp he)
      have hthrough := hpath.child (Server.find_isName hfind)
      cases e with
      | dir =>
        have hchild := openDir_child hopen hfind
        simp only [sshEntryEvents, sshEntry]
        rw [sshRmEx_eq]
        split
        · next hnil =>
          rw [sshList_of_nil hchild hnil, sshLast, rmdir_child hopen hfind hnil]
          exact Outcome.single rfl (gone_of_remove hpl)
        · next hne =>
          exact sshLast_outcome hname hthrough hopen hfind hne (ih hthrough hchild)
      | reg => exact unlink_outcome hpl hopen hfind (by simp)
      | link absolute target => exact unlink_outcome hpl hopen hfind (by simp)
      | special => exact Outcome.same
    · have hfind := Server.mem_children.mp (List.mem_reverse.mp he)
      rw [hgone.sshEntry hname (hpath.child (Server.find_isName hfind))]
      exact ⟨hgone, rfl⟩

end SshOutcome

/-! ## The first event of the FTP walk -/

section FtpOutcome

variable {listFollows : Bool} {name path : QString} {st : Deleting} {pl dir : Loc} {depth : Nat}
  {absolute : Bool} {target : List QString}

/-- The loop over the listing. -/
def ftpList (listFollows : Bool) : Nat → QString → Deleting → Deleting
  | 0, _, st => st
  | depth + 1, path, st =>
    (lista listFollows st.srv path).reverse.foldl (ftpEntry (ftpRmEx listFollows depth) path) st

theorem ftpRmEx_eq (h : openDir st.srv path = some dir) :
    ftpRmEx listFollows depth path st = ftpLast path (ftpList listFollows depth path st) := by
  cases depth with
  | zero =>
    rw [ftpRmEx, h]
    rfl
  | succ depth =>
    rw [ftpRmEx, h]
    rfl

theorem lista_eq {srv : Server} (hopen : openDir srv path = some dir)
    (h : listFollows = true ∨ srv.resolve false path = some dir) :
    lista listFollows srv path = (srv.children dir).filter fun e => e.2 ≠ .special := by
  rw [lista, hopen]
  exact if_pos (by simpa using h)

theorem ftpList_of_nil (h : lista listFollows st.srv path = []) :
    ftpList listFollows depth path st = st := by
  cases depth with
  | zero => rfl
  | succ depth =>
    rw [ftpList, h]
    rfl

theorem ftpEntry_dir {rm : QString → Deleting → Bool × Deleting} {n : QString}
    (h : st.aborted = false) :
    ftpEntry rm path st (n, .dir) =
      if (rm (childPath path n) st).1 then (rm (childPath path n) st).2
      else { (rm (childPath path n) st).2 with aborted := true } := by
  simp [ftpEntry, h]

theorem ftpLast_outcome {n : QString} {events : List Event} {root : Loc} {st' : Deleting}
    (habort : st.aborted = false) (hopen : openDir st.srv path = some dir)
    (he : st.srv.find dir n = some .dir) (hne : st.srv.children (dir ++ [n]) ≠ [])
    (hlist : Outcome (fun st => st.aborted = true) root st events st') :
    Outcome (fun st => st.aborted = true) root st (events ++ [.stuck])
      (if (ftpLast (childPath path n) st').1 then (ftpLast (childPath path n) st').2
        else { (ftpLast (childPath path n) st').2 with aborted := true }) := by
  refine hlist.trans (fun hsame => ?_) ?_ fun hstop => ?_
  · rw [hsame, ftpLast_rmdir habort (rmdir_child_fails hopen he fun _ => hne)]
    exact ⟨nofun, fun _ => ⟨rfl, rfl⟩, nofun⟩
  · split
    · exact ftpLast_grows
    · exact (ftpLast_grows : st'.removed <+: _)
  · rw [ftpLast_aborted hstop]
    exact ⟨rfl, rfl⟩

/-- **What the FTP walk does first is the first of its events.** It removes no link, so it does
not remove the selected one. -/
theorem ftpList_outcome (habort : st.aborted = false)
    (hlink : st.srv.find pl name = some (.link absolute target))
    (hopen : openDir st.srv path = some dir)
    (hlista : listFollows = true ∨ st.srv.resolve false path = some dir) :
    Outcome (fun st => st.aborted = true) (pl ++ [name]) st (ftpEvents st.srv depth dir)
      (ftpList listFollows depth path st) := by
  induction depth generalizing path dir with
  | zero => exact Outcome.same
  | succ depth ih =>
    rw [ftpList, lista_eq hopen hlista, ftpEvents]
    refine Outcome.foldl (fun e he => ?_)
      (fun st' e => ftpEntry_grows fun path st => ftpRmEx_grows) fun st' e _ hstop => ?_
    · obtain ⟨n, e⟩ := e
      have hfind := Server.mem_children.mp (List.mem_of_mem_filter (List.mem_reverse.mp he))
      have hleaf : e ≠ .dir → (∀ a t, e ≠ .link a t) →
          Outcome (fun st => st.aborted = true) (pl ++ [name]) st [.removes (dir ++ [n])]
            (unlink (childPath path n) st).2 := by
        intro hne hne'
        rw [unlink_child hopen hfind hne]
        exact Outcome.single rfl fun heq => absurd heq (ne_of_link hlink hfind hne')
      cases e with
      | dir =>
        have hchild := openDir_child hopen hfind
        obtain ⟨hr, hd⟩ := openDir_eq_some.mp hopen
        have hplace : st.srv.resolve false (childPath path n) = some (dir ++ [n]) :=
          Server.resolve_entry hr hd hfind (by simp)
        simp only [ftpEntryEvents]
        rw [ftpEntry_dir habort, ftpRmEx_eq hchild]
        split
        · next hnil =>
          have hlista : lista listFollows st.srv (childPath path n) = [] := by
            rw [lista_eq hchild (.inr hplace), hnil]
            rfl
          rw [ftpList_of_nil hlista, ftpLast_rmdir habort (rmdir_child hopen hfind hnil)]
          simp only [if_true]
          exact Outcome.single rfl fun heq => absurd heq (ne_of_link hlink hfind (by simp))
        · next hne => exact ftpLast_outcome habort hopen hfind hne (ih hchild (.inr hplace))
      | reg =>
        rw [ftpEntry, habort]
        exact hleaf (by simp) (by simp)
      | link a t =>
        rw [ftpEntry, habort]
        exact Outcome.same
      | special =>
        rw [ftpEntry, habort]
        exact hleaf (by simp) (by simp)
    · have hsame : ftpEntry (ftpRmEx listFollows depth) path st' e = st' := by
        rw [ftpEntry, hstop]
        rfl
      rw [hsame]
      exact ⟨hstop, rfl⟩

end FtpOutcome

/-! ## The selected entry is a link -/

section SelectedLink

variable {srv : Server} {st : Deleting} {parentPath name : QString} {pl dir : Loc} {depth : Nat}
  {absolute : Bool} {target : List QString}

theorem rmdir_link (hparent : openDir st.srv parentPath = some pl)
    (hlink : st.srv.find pl name = some (.link absolute target)) :
    rmdir (childPath parentPath name) st = (false, st) :=
  rmdir_child_fails hparent hlink nofun

theorem openDir_parent (hname : IsName name) (hpl : srv.resolve true parentPath = some pl)
    (hopen : openDir srv (childPath parentPath name) = some dir) :
    openDir srv parentPath = some pl := by
  obtain ⟨d, hd, hreal, -⟩ := Server.resolve_child hname (openDir_eq_some.mp hopen).1
  obtain rfl : d = pl := Option.some.inj (hd.symm.trans hpl)
  exact openDir_eq_some.mpr ⟨hpl, hreal d List.prefix_rfl⟩

theorem realDir_of_openDir {path : QString} (h : openDir srv path = some dir) :
    srv.RealDir dir := by
  obtain ⟨hr, hd⟩ := openDir_eq_some.mp h
  have hreal := Server.resolve_real hr
  rcases List.eq_nil_or_concat dir with rfl | ⟨d, n, rfl⟩
  · exact Server.realDir_nil srv
  · rw [List.concat_eq_append] at hd hreal ⊢
    rw [List.dropLast_concat] at hreal
    exact hreal.concat ((Server.isDir_concat srv d n).mp hd)

theorem ssh_link_iff (hname : IsName name) (hst : st.removed = [])
    (hpl : st.srv.resolve true parentPath = some pl)
    (hlink : st.srv.find pl name = some (.link absolute target))
    (hopen : openDir st.srv (childPath parentPath name) = some dir) :
    (∀ l ∈ (sshRmEx depth (childPath parentPath name) st).removed, pl ++ [name] <+: l) ↔
      ∀ l, (sshEvents st.srv depth dir).head? = some (.removes l) → l = pl ++ [name] := by
  have hparent := openDir_parent hname hpl hopen
  have hlist : Outcome _ _ st (sshEvents st.srv depth dir) _ :=
    sshList_outcome hname hpl .top hopen
  rw [sshRmEx_eq]
  constructor
  · intro hinside l hl
    obtain ⟨more, hremoved, -⟩ := hlist.removes l hl
    have hmem : l ∈ (sshLast (childPath parentPath name)
        (sshList depth (childPath parentPath name) st)).removed :=
      sshLast_grows.subset (by rw [hremoved, hst]; exact List.mem_cons_self)
    have hreal := real_of_mem_sshEvents (realDir_of_openDir hopen) (List.mem_of_mem_head? hl)
    exact eq_link_of_below hlink hreal (hinside l hmem)
  · intro hfirst
    cases hevents : (sshEvents st.srv depth dir).head? with
    | none =>
      rw [hlist.nothing (List.head?_eq_none_iff.mp hevents), sshLast,
        rmdir_link hparent hlink, unlink_child hparent hlink nofun]
      simp [hst]
    | some event =>
      cases event with
      | stuck =>
        obtain ⟨hremoved, hgone⟩ := hlist.stuck hevents
        rw [hgone.sshLast hname .top, hremoved, hst]
        exact nofun
      | removes l =>
        obtain ⟨more, hremoved, hroot⟩ := hlist.removes l hevents
        obtain rfl := hfirst l hevents
        obtain ⟨rfl, hgone⟩ := hroot rfl
        rw [hgone.sshLast hname .top, hremoved, hst]
        simp

theorem ftp_link_iff {listFollows : Bool} (hname : IsName name) (hst : st.removed = [])
    (habort : st.aborted = false) (hpl : st.srv.resolve true parentPath = some pl)
    (hlink : st.srv.find pl name = some (.link absolute target))
    (hopen : openDir st.srv (childPath parentPath name) = some dir) :
    (∀ l ∈ (ftpRmEx listFollows depth (childPath parentPath name) st).2.removed,
        pl ++ [name] <+: l) ↔
      (listFollows = true → ∀ l, (ftpEvents st.srv depth dir).head? ≠ some (.removes l)) := by
  have hparent := openDir_parent hname hpl hopen
  have hfails := rmdir_link hparent hlink
  rw [ftpRmEx_eq hopen]
  cases listFollows with
  | false =>
    -- The listing shows the link alone, and the walk leaves links alone.
    have hnil : lista false st.srv (childPath parentPath name) = [] := by
      have hplace : st.srv.resolve false (childPath parentPath name) = some (pl ++ [name]) :=
        Server.resolve_entry hpl (openDir_eq_some.mp hparent).2 hlink nofun
      rw [lista, hopen]
      refine if_neg ?_
      rw [hplace, Bool.false_or, decide_eq_true_eq]
      intro heq
      have hdir := (openDir_eq_some.mp hopen).2
      rw [← Option.some.inj heq, Server.isDir_concat, hlink] at hdir
      cases hdir
    rw [ftpList_of_nil hnil, ftpLast, hfails, habort]
    simp [hst]
  | true =>
    have hlist : Outcome _ _ st (ftpEvents st.srv depth dir) _ :=
      ftpList_outcome habort hlink hopen (.inl rfl)
    constructor
    · intro hinside _ l hl
      obtain ⟨more, hremoved, -⟩ := hlist.removes l hl
      have hmem : l ∈ (ftpLast (childPath parentPath name)
          (ftpList true depth (childPath parentPath name) st)).2.removed :=
        ftpLast_grows.subset (by rw [hremoved, hst]; exact List.mem_cons_self)
      obtain ⟨hreal, hne⟩ :=
        real_of_mem_ftpEvents hlink (realDir_of_openDir hopen) (List.mem_of_mem_head? hl)
      exact hne (eq_link_of_below hlink hreal (hinside l hmem))
    · intro hfirst
      cases hevents : (ftpEvents st.srv depth dir).head? with
      | none =>
        rw [hlist.nothing (List.head?_eq_none_iff.mp hevents), ftpLast, hfails, habort]
        simp [hst]
      | some event =>
        cases event with
        | stuck =>
          obtain ⟨hremoved, hstop⟩ := hlist.stuck hevents
          rw [ftpLast, hstop]
          simp [hremoved, hst]
        | removes l => exact absurd hevents (hfirst rfl l)

end SelectedLink

/-! ## The command -/

/-- Everything that was removed is at or below the entry `name` of the directory. -/
def StaysInside (srv : Server) (dirPath name : QString) (st : Deleting) : Prop :=
  ∀ l ∈ st.removed, ∃ dir, srv.resolve true dirPath = some dir ∧ dir ++ [name] <+: l

/-- The command gets as far as the server. -/
def Requested (parentPath : QString) (childNodes : List NetDirNode) (name : QString) : Prop :=
  childPath parentPath name ∉ sysDirs ∧ ∃ c ∈ childNodes, c.fileName = name

/-- The selected entry is a link in `pl` that leads to the directory `dir`. -/
structure LeadsTo (srv : Server) (dirPath name : QString) (pl dir : Loc) : Prop where
  parent : srv.resolve true dirPath = some pl
  link : ∃ absolute target, srv.find pl name = some (.link absolute target)
  opens : openDir srv (childPath dirPath name) = some dir

/-- A link to a directory is only selected when nothing below it can be removed, or the link itself
is the first entry that can. -/
def SshHarmless (srv : Server) (parentPath : QString) (childNodes : List NetDirNode)
    (dirPath name : QString) : Prop :=
  Requested parentPath childNodes name → ∀ pl dir, LeadsTo srv dirPath name pl dir →
    ∀ l, (sshEvents srv srv.height dir).head? = some (.removes l) → l = pl ++ [name]

/-- The same for FTP, where links are not removed, and where the server may not list through the
link. -/
def FtpHarmless (listFollows : Bool) (srv : Server) (parentPath : QString)
    (childNodes : List NetDirNode) (dirPath name : QString) : Prop :=
  Requested parentPath childNodes name → ∀ pl dir, LeadsTo srv dirPath name pl dir →
    listFollows = true → ∀ l, (ftpEvents srv srv.height dir).head? ≠ some (.removes l)

section Command

variable {srv : Server} {parentPath dirPath name : QString} {childNodes : List NetDirNode}

theorem removesInside_selected (hname : IsName name) {pl : Loc}
    (hpl : srv.resolve true dirPath = some pl) :
    RemovesInside srv (pl ++ [name]) (childPath dirPath name) := by
  intro l hl
  obtain ⟨dir, hdir, -, e, -, hplace⟩ := Server.resolve_child hname hl
  obtain rfl : dir = pl := Option.some.inj (hdir.symm.trans hpl)
  obtain rfl := hplace (.inl rfl)
  exact List.prefix_rfl

theorem opensInside_selected (hname : IsName name) {pl : Loc}
    (hpl : srv.resolve true dirPath = some pl)
    (hlink : ∀ dir, ¬ LeadsTo srv dirPath name pl dir) :
    OpensInside srv (pl ++ [name]) (childPath dirPath name) := by
  intro l hl
  obtain ⟨dir, hdir, -, e, he, hplace⟩ :=
    Server.resolve_child hname (openDir_eq_some.mp hl).1
  obtain rfl : dir = pl := Option.some.inj (hdir.symm.trans hpl)
  have hne : ∀ absolute target, e ≠ .link absolute target := by
    rintro absolute target rfl
    exact hlink l ⟨hpl, ⟨absolute, target, he⟩, hl⟩
  obtain rfl := hplace (.inr hne)
  exact List.prefix_rfl

theorem staysInside_iff (hname : IsName name)
    (hfull : ∀ c ∈ childNodes, c.fileName = name → c.fullPath = childPath dirPath name)
    {rmEx : QString → Deleting → Deleting} {Harmless : Loc → Loc → Prop}
    (hinside : ∀ root, RemovesInside srv root (childPath dirPath name) →
      OpensInside srv root (childPath dirPath name) →
      Inside srv root (rmEx (childPath dirPath name) ⟨srv, [], false⟩))
    (hlink : ∀ pl dir, LeadsTo srv dirPath name pl dir →
      ((∀ l ∈ (rmEx (childPath dirPath name) ⟨srv, [], false⟩).removed, pl ++ [name] <+: l) ↔
        Harmless pl dir)) :
    StaysInside srv dirPath name
        (rmFileOrDirectoryRecursively rmEx parentPath childNodes name ⟨srv, [], false⟩) ↔
      (Requested parentPath childNodes name →
        ∀ pl dir, LeadsTo srv dirPath name pl dir → Harmless pl dir) := by
  unfold rmFileOrDirectoryRecursively
  by_cases hsys : childPath parentPath name ∈ sysDirs
  · rw [if_pos (List.contains_iff_mem.mpr hsys)]
    exact ⟨fun _ h => absurd hsys h.1, fun _ => nofun⟩
  rw [if_neg (List.contains_iff_mem.not.mpr hsys)]
  cases hfind : childNodes.find? fun childItem => childItem.fileName == name with
  | none =>
    refine ⟨fun _ h => ?_, fun _ => nofun⟩
    obtain ⟨c, hc, hcname⟩ := h.2
    exact absurd hcname (by simpa using List.find?_eq_none.mp hfind c hc)
  | some c =>
    have hc := List.mem_of_find?_eq_some hfind
    have hcname : c.fileName = name := by simpa using List.find?_some hfind
    have hrequested : Requested parentPath childNodes name := ⟨hsys, c, hc, hcname⟩
    simp only [hfull c hc hcname]
    constructor
    · intro hstays _ pl dir hleads
      refine (hlink pl dir hleads).mp fun l hl => ?_
      obtain ⟨d, hd, hprefix⟩ := hstays l hl
      rwa [Option.some.inj (hd.symm.trans hleads.parent)] at hprefix
    · intro hharmless l hl
      have hharmless := hharmless hrequested
      cases hpl : srv.resolve true dirPath with
      | none =>
        -- The path leads nowhere, so the walk is inside of whatever we like.
        have hnone : ∀ follow l, srv.resolve follow (childPath dirPath name) ≠ some l := by
          intro follow l hl
          obtain ⟨dir, hdir, -⟩ := Server.resolve_child hname hl
          rw [hpl] at hdir
          cases hdir
        have hprefix := (hinside (l ++ [name]) (fun _ h => absurd h (hnone _ _))
          fun _ h => absurd (openDir_eq_some.mp h).1 (hnone _ _)).removed l hl
        have hlength := hprefix.length_le
        rw [List.length_append, List.length_singleton] at hlength
        omega
      | some pl =>
        refine ⟨pl, rfl, ?_⟩
        by_cases hleads : ∃ dir, LeadsTo srv dirPath name pl dir
        · obtain ⟨dir, hleads⟩ := hleads
          exact (hlink pl dir hleads).mpr (hharmless pl dir hleads) l hl
        · exact (hinside _ (removesInside_selected hname hpl) (opensInside_selected hname hpl
            fun dir h => hleads ⟨dir, h⟩)).removed l hl

end Command

/-! ## A server with a link -/

/-- `/a/l` leads to `/b`, with one file in it. -/
def linkedServer : Server where
  entries :=
    [([], ['a'], .dir), ([], ['b'], .dir), ([['a']], ['l'], .link true [['b']]),
      ([['b']], ['f'], .reg)]
  maxLinks := 8
  nodup := by decide
  named := by decide

/-- The node that a listing of `dirPath` makes for `name`. -/
def listedNode (dirPath name : QString) : NetDirNode :=
  { NetDirNode.new with fullPath := childPath dirPath name, fileName := name }

end NullFxp.Retriver
