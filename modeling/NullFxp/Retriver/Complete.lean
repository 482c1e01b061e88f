import NullFxp.Retriver.Clears

/-!
# What a recursive delete leaves behind

An entry of a kind that the walk does not remove keeps every directory above it, and so does an
entry whose name does not come back.
-/

open NullFxp.LibFtp Text

namespace NullFxp.Retriver

/-- Nothing is left of the selected entry, and no assertion has failed. -/
def Complete (root : Loc) (st : Deleting) : Prop :=
  st.aborted = false ∧ ∀ dir name, root <+: dir ++ [name] → st.srv.find dir name = none

theorem Clears.complete {root : Loc} {st st' : Deleting} (h : Clears root st st')
    (habort : st.aborted = false) : Complete root st' := by
  refine ⟨h.aborted.trans habort, fun dir name hroot => ?_⟩
  rw [Option.eq_none_iff_forall_ne_some]
  intro e he
  rw [h.srv, Server.find_prune, under_iff.mpr hroot] at he
  cases he.2

/-! ## What the walks spare -/

/-- All safe entries are still there. -/
structure Spares (safe : Loc → QString → Entry → Prop) (srv₀ : Server) (st : Deleting) : Prop where
  sub : st.srv.Sub srv₀
  kept : ∀ dir name e, srv₀.find dir name = some e → safe dir name e → st.srv.find dir name = some e

/-- The path does not lead to a safe entry of a kind that is removed. -/
def Misses (safe : Loc → QString → Entry → Prop) (removed : Entry → Prop) (srv₀ : Server)
    (path : QString) : Prop :=
  ∀ dir name e, srv₀.resolve false path = some (dir ++ [name]) → srv₀.find dir name = some e →
    removed e → ¬ safe dir name e

def IsDir (e : Entry) : Prop := e = .dir

def IsNoDir (e : Entry) : Prop := e ≠ .dir

def Any (_ : Entry) : Prop := True

section Spares

variable {safe : Loc → QString → Entry → Prop} {srv₀ : Server} {st : Deleting} {path : QString}
  {names : Names} {depth : Nat}

theorem Spares.start (safe : Loc → QString → Entry → Prop) (srv₀ : Server) :
    Spares safe srv₀ ⟨srv₀, [], false⟩ :=
  ⟨Server.Sub.refl srv₀, fun _ _ _ he _ => he⟩

theorem Spares.abort (h : Spares safe srv₀ st) : Spares safe srv₀ { st with aborted := true } :=
  ⟨h.sub, h.kept⟩

theorem Spares.removeAt (h : Spares safe srv₀ st) {test : Server → Loc → Entry → Bool}
    {removed : Entry → Prop} (htest : ∀ srv l e, test srv l e = true → removed e)
    (hpath : Misses safe removed srv₀ path) : Spares safe srv₀ (removeAt test path st).2 := by
  rcases removeAt_cases test path st with heq | ⟨dir, name, e, hr, he, hremoved, heq⟩
  · rw [heq]
    exact h
  · rw [heq]
    have hunsafe := hpath dir name e (h.sub.resolve hr) (h.sub.find he) (htest _ _ _ hremoved)
    refine ⟨(Server.sub_remove _ _ _).trans h.sub, fun d n e' he' hsafe => ?_⟩
    refine Server.find_remove.mpr ⟨h.kept d n e' he' hsafe, ?_⟩
    rintro ⟨rfl, rfl⟩
    obtain rfl := Option.some.inj (he'.symm.trans (h.sub.find he))
    exact hunsafe hsafe

theorem Spares.rmdir (h : Spares safe srv₀ st) (hpath : Misses safe IsDir srv₀ path) :
    Spares safe srv₀ (rmdir path st).2 :=
  h.removeAt (fun _ _ _ htest => by
    rw [Bool.and_eq_true, decide_eq_true_eq] at htest
    exact htest.1) hpath

theorem Spares.unlink (h : Spares safe srv₀ st) (hpath : Misses safe IsNoDir srv₀ path) :
    Spares safe srv₀ (unlink path st).2 :=
  h.removeAt (fun _ _ _ htest => by simpa [IsNoDir] using htest) hpath

theorem Misses.mono {removed removed' : Entry → Prop} (h : Misses safe removed srv₀ path)
    (hremoved : ∀ e, removed' e → removed e) : Misses safe removed' srv₀ path :=
  fun dir name e hr he hkind => h dir name e hr he (hremoved e hkind)

theorem Spares.sshLast (h : Spares safe srv₀ st) (hpath : Misses safe Any srv₀ path) :
    Spares safe srv₀ (sshLast path st) := by
  unfold Retriver.sshLast
  split
  · exact h.rmdir (hpath.mono fun _ _ => trivial)
  · exact h.unlink (hpath.mono fun _ _ => trivial)

theorem Spares.ftpLast (h : Spares safe srv₀ st) (hpath : Misses safe IsDir srv₀ path) :
    Spares safe srv₀ (ftpLast path st).2 := by
  have hrmdir := h.rmdir hpath
  unfold Retriver.ftpLast
  split
  · exact h
  · simp only
    split
    · exact hrmdir
    · exact hrmdir.abort

/-- The paths that a walk goes to: with one, those of the directories listed there. -/
def Follows (names : Names) (srv₀ : Server) (visits : QString → Prop) : Prop :=
  ∀ path dir n text, visits path → openDir srv₀ (names.dir path) = some dir →
    srv₀.find dir n = some .dir → names.shown dir (n, .dir) = some text →
    visits (childPath path text)

/-- What goes out for an entry of a directory. -/
def Names.sent (names : Names) (e : Entry) (path : QString) : QString :=
  if e = .dir then names.dir path else names.file path

theorem Names.sent_dir (names : Names) (path : QString) : names.sent .dir path = names.dir path :=
  if_pos rfl

theorem Names.sent_file {e : Entry} (names : Names) (path : QString) (he : e ≠ .dir) :
    names.sent e path = names.file path := if_neg he

/-- **The SSH walk spares** what none of its requests leads to. -/
theorem Spares.sshList {visits : QString → Prop} (hfollows : Follows names srv₀ visits)
    (hmiss : ∀ path dir n e text, visits path → openDir srv₀ (names.dir path) = some dir →
      srv₀.find dir n = some e → e ≠ .special → names.shown dir (n, e) = some text →
      Misses safe Any srv₀ (names.sent e (childPath path text)))
    (h : Spares safe srv₀ st) (hpath : visits path) :
    Spares safe srv₀ (names.sshList depth path st) := by
  induction depth generalizing path st with
  | zero => exact h
  | succ depth ih =>
    rw [Names.sshList]
    refine List.foldlRecOn _ _ h fun st' hst' entry he => ?_
    obtain ⟨text, e⟩ := entry
    obtain ⟨dir, n, hopen, he, htext⟩ := Names.mem_listing (List.mem_reverse.mp he)
    obtain ⟨dir', hdir', he⟩ := mem_fxpDoLsDir he
    obtain rfl := Option.some.inj (hopen.symm.trans hdir')
    have hopen₀ := openDir_sub h.sub hopen
    have hfind := h.sub.find (Server.mem_children.mp he)
    have hmiss' := fun hspecial => hmiss path dir n e text hpath hopen₀ hfind hspecial htext
    unfold Names.sshEntry
    cases e with
    | dir =>
      dsimp only
      split
      · exact hst'
      rw [Names.sshRmEx_eq]
      exact (ih hst' (hfollows path dir n text hpath hopen₀ hfind htext)).sshLast (hmiss' (by simp))
    | reg => exact hst'.unlink ((hmiss' (by simp)).mono fun _ _ => trivial)
    | link absolute target => exact hst'.unlink ((hmiss' (by simp)).mono fun _ _ => trivial)
    | special => exact hst'

/-- **The FTP walk spares** what none of its requests leads to. -/
theorem Spares.ftpList {visits : QString → Prop} {listFollows : Bool}
    (hfollows : Follows names srv₀ visits)
    (hdir : ∀ path dir n text, visits path → openDir srv₀ (names.dir path) = some dir →
      srv₀.find dir n = some .dir → names.shown dir (n, .dir) = some text →
      Misses safe IsDir srv₀ (names.dir (childPath path text)) ∧
        Misses safe IsNoDir srv₀ (names.file (childPath path text)))
    (hfile : ∀ path dir n text, visits path → openDir srv₀ (names.dir path) = some dir →
      srv₀.find dir n = some .reg → names.shown dir (n, .reg) = some text →
      Misses safe IsNoDir srv₀ (names.file (childPath path text)))
    (h : Spares safe srv₀ st) (hpath : visits path) :
    Spares safe srv₀ (names.ftpList listFollows depth path st) := by
  induction depth generalizing path st with
  | zero => exact h
  | succ depth ih =>
    rw [Names.ftpList]
    refine List.foldlRecOn _ _ h fun st' hst' entry he => ?_
    obtain ⟨text, e⟩ := entry
    obtain ⟨dir, n, hopen, he, htext⟩ := Names.mem_listing (List.mem_reverse.mp he)
    have hspecial := lista_not_special he
    obtain ⟨dir', hdir', he⟩ := mem_lista he
    obtain rfl := Option.some.inj (hopen.symm.trans hdir')
    have hopen₀ := openDir_sub h.sub hopen
    have hfind := h.sub.find (Server.mem_children.mp he)
    unfold Names.ftpEntry
    split
    · exact hst'
    cases e with
    | dir =>
      obtain ⟨hrmdir, hunlink⟩ := hdir path dir n text hpath hopen₀ hfind htext
      have hrm : Spares safe srv₀ (names.ftpRmEx listFollows depth (childPath path text) st').2 := by
        cases hchild : openDir st'.srv (names.dir (childPath path text)) with
        | none =>
          rw [Names.ftpRmEx_of_none hchild]
          exact hst'.unlink hunlink
        | some d =>
          rw [Names.ftpRmEx_of_some hchild]
          exact (ih hst' (hfollows path dir n text hpath hopen₀ hfind htext)).ftpLast hrmdir
      simp only
      split
      · exact hrm
      · exact hrm.abort
    | reg => exact hst'.unlink (hfile path dir n text hpath hopen₀ hfind htext)
    | link absolute target => exact hst'
    | special => exact absurd rfl hspecial

theorem Spares.not_safe {root dir : Loc} {name : QString} {e : Entry} (h : Spares safe srv₀ st)
    (hcomplete : Complete root st) (he : srv₀.find dir name = some e)
    (hroot : root <+: dir ++ [name]) : ¬ safe dir name e := by
  intro hsafe
  have hkept := h.kept dir name e he hsafe
  rw [hcomplete.2 dir name hroot] at hkept
  cases hkept

end Spares

/-! ## Names that come back -/

/-- What goes out for the entry is the entry's name. -/
def Names.Right (names : Names) (dir : Loc) (name : QString) (e : Entry) : Prop :=
  ∃ text, names.shown dir (name, e) = some text ∧ names.sent e text = name

/-- What goes out for an entry is a name. If it is not the entry's, then it is not also wrong for the
entry that has it, of those that the request can `hit`. -/
structure Names.Settled (names : Names) (hits : Entry → Entry → Prop) (srv : Server) : Prop where
  named : ∀ {dir n e text}, srv.find dir n = some e → e ≠ .special →
    names.shown dir (n, e) = some text → IsName (names.sent e text)
  again : ∀ {dir n e text e'}, srv.find dir n = some e → e ≠ .special →
    names.shown dir (n, e) = some text → srv.find dir (names.sent e text) = some e' → hits e e' →
    names.Right dir (names.sent e text) e'
  agree : ∀ {dir n text}, srv.find dir n = some .dir → names.shown dir (n, .dir) = some text →
    names.dir text = n → names.file text = n

/-- `rmdir` and `unlink` are both tried. -/
def SshHits (_ _ : Entry) : Prop := True

/-- `RMD` is for directories, and `DELE` for the others. -/
def FtpHits (e e' : Entry) : Prop := e = .dir ↔ e' = .dir

theorem Names.Plain.settled {names : Names} {srv : Server} (h : names.Plain srv)
    (hits : Entry → Entry → Prop) : names.Settled hits srv := by
  have hsent : ∀ {dir n e text}, srv.find dir n = some e → e ≠ .special →
      names.shown dir (n, e) = some text → text = n ∧ names.sent e text = n := by
    intro dir n e text hfind hspecial htext
    obtain ⟨hshown, hdir, hfile⟩ := h dir n e hfind hspecial
    obtain rfl := Option.some.inj (htext.symm.trans hshown)
    unfold Names.sent
    split <;> exact ⟨rfl, by assumption⟩
  refine ⟨fun hfind hspecial htext => ?_, fun {dir n e text e'} hfind hspecial htext he' _ => ?_,
    fun {dir n text} hfind htext _ => ?_⟩
  · rw [(hsent hfind hspecial htext).2]
    exact Server.find_isName hfind
  · obtain ⟨rfl, hsame⟩ := hsent hfind hspecial htext
    rw [hsame, hfind] at he'
    obtain rfl := Option.some.inj he'
    rw [hsame]
    exact ⟨text, htext, hsame⟩
  · obtain ⟨rfl, -⟩ := hsent hfind (by simp) htext
    exact (h dir text .dir hfind (by simp)).2.2

section Sent

variable {names : Names} {srv : Server} {path text n : QString} {dir root : Loc} {e : Entry}
  {safe : Loc → QString → Entry → Prop} {removed : Entry → Prop}

theorem Names.sent_child (hlaw : names.Lawful) (e : Entry) (path text : QString) :
    names.sent e (childPath path text) = childPath (names.sent e path) (names.sent e text) := by
  unfold Names.sent
  split
  · exact hlaw.dir path text
  · exact hlaw.file path text

theorem sent_place (hlaw : names.Lawful) (hopen : openDir srv (names.sent e path) = some dir)
    (hname : IsName (names.sent e text)) {d : Loc}
    (hr : srv.resolve false (names.sent e (childPath path text)) = some (d ++ [n])) :
    d = dir ∧ n = names.sent e text := by
  rw [Names.sent_child hlaw] at hr
  obtain ⟨d', hd', -, e', -, hplace⟩ := Server.resolve_child hname hr
  obtain rfl := Option.some.inj (hd'.symm.trans (openDir_eq_some.mp hopen).1)
  obtain ⟨rfl, hn⟩ := List.append_inj' (hplace (.inl rfl)) rfl
  exact ⟨rfl, List.singleton_inj.mp hn⟩

theorem Names.Settled.misses {hits : Entry → Entry → Prop} (h : names.Settled hits srv)
    (hlaw : names.Lawful) (hopen : openDir srv (names.sent e path) = some dir)
    (hfind : srv.find dir n = some e) (hspecial : e ≠ .special)
    (htext : names.shown dir (n, e) = some text) (hhits : ∀ e', removed e' → hits e e') :
    Misses (fun dir n e => ¬ names.Right dir n e) removed srv
      (names.sent e (childPath path text)) := by
  intro d n' e' hr he' hremoved
  obtain ⟨rfl, rfl⟩ := sent_place hlaw hopen (h.named hfind hspecial htext) hr
  exact not_not.mpr (h.again hfind hspecial htext he' (hhits e' hremoved))

theorem Names.Right.misses (h : names.Right dir n e) (hlaw : names.Lawful)
    (hopen : openDir srv (names.sent e path) = some dir) (hfind : srv.find dir n = some e)
    (htext : names.shown dir (n, e) = some text) (hsafe : removed e → ¬ safe dir n e) :
    Misses safe removed srv (names.sent e (childPath path text)) := by
  obtain ⟨text', htext', hsent⟩ := h
  obtain rfl := Option.some.inj (htext.symm.trans htext')
  intro d n' e' hr he' hremoved
  obtain ⟨rfl, rfl⟩ := sent_place hlaw hopen (hsent ▸ Server.find_isName hfind) hr
  rw [hsent] at he' ⊢
  obtain rfl := Option.some.inj (hfind.symm.trans he')
  exact hsafe hremoved

theorem Names.Right.opens (h : names.Right dir n .dir) (hlaw : names.Lawful)
    (hopen : openDir srv (names.dir path) = some dir) (hfind : srv.find dir n = some .dir)
    (htext : names.shown dir (n, .dir) = some text) :
    openDir srv (names.dir (childPath path text)) = some (dir ++ [n]) := by
  obtain ⟨text', htext', hsent⟩ := h
  obtain rfl := Option.some.inj (htext.symm.trans htext')
  rw [Names.sent_dir] at hsent
  rw [hlaw.dir, hsent]
  exact openDir_child hopen hfind

theorem Names.Lawful.not_dots (hlaw : names.Lawful) (hname : IsName (names.file text)) :
    isDots text = false := by
  rw [← Bool.not_eq_true, isDots, Bool.or_eq_true, decide_eq_true_eq, decide_eq_true_eq]
  rintro (rfl | rfl)
  · exact hname.2.2.1 hlaw.dots.2.2.1
  · exact hname.2.2.2 hlaw.dots.2.2.2

theorem Names.Right.sentBack {hits : Entry → Entry → Prop} (h : names.Right dir n e)
    (hlaw : names.Lawful) (hsettled : names.Settled hits srv) (hfind : srv.find dir n = some e) :
    names.SentBack dir n e := by
  obtain ⟨text, htext, hsent⟩ := h
  have hfile : names.file text = n := by
    by_cases hdir : e = .dir
    · subst hdir
      exact hsettled.agree hfind htext hsent
    · rwa [Names.sent_file _ _ hdir] at hsent
  refine ⟨text, htext, hlaw.not_dots (hfile ▸ Server.find_isName hfind), hfile, ?_⟩
  rintro rfl
  exact hsent

/-- The paths below `root`. -/
def OpensBelow (names : Names) (srv : Server) (root : Loc) (path : QString) : Prop :=
  ∀ dir, openDir srv (names.dir path) = some dir → root <+: dir

theorem follows_below (hlaw : names.Lawful)
    (hright : ∀ dir n, srv.find dir n = some .dir → root <+: dir → names.Right dir n .dir) :
    Follows names srv (OpensBelow names srv root) := by
  intro path dir n text hpath hopen hfind htext d hd
  have hroot := hpath dir hopen
  have hchild := (hright dir n hfind hroot).opens hlaw hopen hfind htext
  obtain rfl := Option.some.inj (hd.symm.trans hchild)
  exact hroot.trans (List.prefix_append _ _)

theorem follows_all (names : Names) (srv : Server) : Follows names srv fun _ => True :=
  fun _ _ _ _ _ _ _ _ => trivial

end Sent

/-! ## The last step -/

/-- What is not below `root`, or is of a kind that the walk does not remove. -/
def Kept (kind : Entry → Prop) (root : Loc) (dir : Loc) (_ : QString) (e : Entry) : Prop :=
  kind e ∨ ¬ root <+: dir

section Last

variable {srv : Server} {parentPath name : QString} {pl : Loc} {st : Deleting} {kind : Entry → Prop}

theorem not_prefix_parent : ¬ pl ++ [name] <+: pl := by
  intro hpre
  have := hpre.length_le
  rw [List.length_append, List.length_singleton] at this
  omega

theorem Spares.selected (h : Spares (Kept kind (pl ++ [name])) srv st)
    (he : srv.find pl name = some .dir) : st.srv.find pl name = some .dir :=
  h.kept pl name .dir he (.inr not_prefix_parent)

theorem Spares.place (h : Spares (Kept kind (pl ++ [name])) srv st)
    (hopen : openDir srv parentPath = some pl) (he : srv.find pl name = some .dir) {l : Loc}
    (hr : st.srv.resolve false (childPath parentPath name) = some l) : l = pl ++ [name] :=
  Option.some.inj ((h.sub.resolve hr).symm.trans (resolve_child_entry hopen he))

theorem Spares.not_complete_unlink (h : Spares (Kept kind (pl ++ [name])) srv st)
    (hopen : openDir srv parentPath = some pl) (he : srv.find pl name = some .dir) :
    ¬ Complete (pl ++ [name]) (Retriver.unlink (childPath parentPath name) st).2 := by
  intro hcomplete
  have hselected := h.selected he
  rcases removeAt_cases (fun _ _ e => e ≠ .dir) (childPath parentPath name) st
    with heq | ⟨d, n, e, hr, hfind, htest, -⟩
  · rw [Retriver.unlink, heq] at hcomplete
    rw [hcomplete.2 pl name List.prefix_rfl] at hselected
    cases hselected
  · obtain ⟨rfl, hn⟩ := List.append_inj' (h.place hopen he hr) rfl
    obtain rfl := List.singleton_inj.mp hn
    obtain rfl := Option.some.inj (hselected.symm.trans hfind)
    simp at htest

theorem Spares.of_rmdir (h : Spares (Kept kind (pl ++ [name])) srv st)
    (hopen : openDir srv parentPath = some pl) (he : srv.find pl name = some .dir)
    (hcomplete : Complete (pl ++ [name]) (Retriver.rmdir (childPath parentPath name) st).2) :
    NoneBelow srv (pl ++ [name]) kind ∧
      openDir (srv.prune (below (pl ++ [name]))) parentPath = some pl := by
  have hname := Server.find_isName he
  have hselected := h.selected he
  rcases removeAt_cases (fun srv l e => e = .dir && srv.children l = []) (childPath parentPath name) st
    with heq | ⟨d, n, e, hr, -, -, heq⟩
  · rw [Retriver.rmdir, heq] at hcomplete
    rw [hcomplete.2 pl name List.prefix_rfl] at hselected
    cases hselected
  · rw [Retriver.rmdir, heq] at hcomplete
    have hplace := h.place hopen he hr
    have hgone : ∀ dir m e, pl ++ [name] <+: dir → st.srv.find dir m ≠ some e := by
      intro dir m e hpre hm
      have hleft : (st.srv.remove d n).find dir m = some e := by
        refine Server.find_remove.mpr ⟨hm, ?_⟩
        rintro ⟨rfl, rfl⟩
        have := hpre.length_le
        rw [← hplace, List.length_append, List.length_singleton] at this
        omega
      rw [hcomplete.2 dir m (hpre.trans (List.prefix_append _ _))] at hleft
      cases hleft
    refine ⟨fun dir m e hpre hm hkind => hgone dir m e hpre (h.kept dir m e hm (.inl hkind)), ?_⟩
    have hsub : st.srv.Sub (srv.prune (below (pl ++ [name]))) := by
      refine ⟨fun {dir m e} hm => Server.find_prune.mpr ⟨h.sub.find hm, ?_⟩, h.sub.maxLinks⟩
      rw [← Bool.not_eq_true, below_concat_iff]
      exact fun hpre => hgone dir m e hpre hm
    obtain ⟨pl', hpl', hreal, _, -, hentry⟩ := Server.resolve_child hname hr
    rw [hplace] at hentry
    obtain ⟨rfl, -⟩ := List.append_inj' (hentry (.inl rfl)) rfl
    exact openDir_sub hsub (openDir_eq_some.mpr ⟨hpl', hreal pl List.prefix_rfl⟩)

end Last

/-! ## The two retrievers -/

/-- A node of the view that stands for the directory `name` in `pl`. -/
structure Names.Stands (names : Names) (srv : Server) (parentPath text : QString) (pl : Loc)
    (name : QString) : Prop where
  opens : openDir srv (names.dir parentPath) = some pl
  entry : srv.find pl name = some .dir
  shown : names.shown pl (name, .dir) = some text

section Retrivers

variable {names : Names} {srv : Server} {parentPath text name : QString} {pl : Loc} {depth : Nat}

theorem Names.Stands.opensBelow (h : names.Stands srv parentPath text pl name)
    (hlaw : names.Lawful) (hright : names.Right pl name .dir) :
    OpensBelow names srv (pl ++ [name]) (childPath parentPath text) := by
  intro dir hdir
  obtain rfl := Option.some.inj (hdir.symm.trans (hright.opens hlaw h.opens h.entry h.shown))
  exact List.prefix_rfl

theorem Names.Stands.sent (h : names.Stands srv parentPath text pl name)
    (hright : names.Right pl name .dir) : names.dir text = name := by
  obtain ⟨text', htext, hsent⟩ := hright
  obtain rfl := Option.some.inj (h.shown.symm.trans htext)
  exact hsent

theorem ssh_right_of_complete (hlaw : names.Lawful) (hsame : names.file = names.dir)
    (hsettled : names.Settled SshHits srv) (h : names.Stands srv parentPath text pl name)
    (hcomplete : Complete (pl ++ [name])
      (names.sshRmEx depth (childPath parentPath text) ⟨srv, [], false⟩))
    {dir : Loc} {n : QString} {e : Entry} (hfind : srv.find dir n = some e)
    (hroot : pl ++ [name] <+: dir ++ [n]) : names.Right dir n e := by
  have hsent : ∀ e path, names.sent e path = names.dir path := fun e path => by
    unfold Names.sent
    split
    · rfl
    · rw [hsame]
  have hmiss : ∀ {path dir n e text}, openDir srv (names.dir path) = some dir →
      srv.find dir n = some e → e ≠ .special → names.shown dir (n, e) = some text →
      Misses (fun dir n e => ¬ names.Right dir n e) Any srv (names.sent e (childPath path text)) :=
    fun {path dir n e text} hopen hfind hspecial htext =>
      hsettled.misses hlaw ((hsent e path).symm ▸ hopen) hfind hspecial htext fun _ _ => trivial
  have hspares : Spares (fun dir n e => ¬ names.Right dir n e) srv
      (names.sshList depth (childPath parentPath text) ⟨srv, [], false⟩) :=
    Spares.sshList (follows_all names srv)
      (fun _ _ _ _ _ _ hopen hfind hspecial htext => hmiss hopen hfind hspecial htext)
      (Spares.start _ srv) trivial
  have hlast := hmiss h.opens h.entry (by simp) h.shown
  rw [hsent] at hlast
  rw [Names.sshRmEx_eq] at hcomplete
  exact not_not.mp ((hspares.sshLast hlast).not_safe hcomplete hfind hroot)

/-- **A complete delete by SSH** takes all that `Clearable` says. -/
theorem ssh_clearable (hlaw : names.Lawful) (hsame : names.file = names.dir)
    (hsettled : names.Settled SshHits srv) (h : names.Stands srv parentPath text pl name)
    (hcomplete : Complete (pl ++ [name])
      (names.sshRmEx depth (childPath parentPath text) ⟨srv, [], false⟩)) :
    Clearable names IsSpecial srv parentPath name pl := by
  have hright : ∀ {dir n e}, srv.find dir n = some e → pl ++ [name] <+: dir ++ [n] →
      names.Right dir n e :=
    fun hfind hroot => ssh_right_of_complete hlaw hsame hsettled h hcomplete hfind hroot
  have hselected := hright h.entry List.prefix_rfl
  have hspares : Spares (Kept IsSpecial (pl ++ [name])) srv
      (names.sshList depth (childPath parentPath text) ⟨srv, [], false⟩) := by
    refine Spares.sshList (follows_below hlaw fun dir n hfind hroot =>
      hright hfind (hroot.trans (List.prefix_append _ _))) ?_ (Spares.start _ srv)
      (h.opensBelow hlaw hselected)
    intro path dir n e shown hpath hopen hfind hspecial hshown
    have hroot := hpath dir hopen
    refine (hright hfind (hroot.trans (List.prefix_append _ _))).misses hlaw ?_ hfind hshown
      fun _ hkept => ?_
    · unfold Names.sent
      split
      · exact hopen
      · rwa [hsame]
    · exact hkept.elim hspecial fun hnot => hnot hroot
  rw [Names.sshRmEx_eq, hlaw.dir, h.sent hselected] at hcomplete
  have hrmdir : Complete (pl ++ [name]) (rmdir (childPath (names.dir parentPath) name)
      (names.sshList depth (childPath parentPath text) ⟨srv, [], false⟩)).2 := by
    -- When `rmdir` fails, `unlink` does not remove the directory either.
    unfold sshLast at hcomplete
    split at hcomplete
    · exact hcomplete
    · exact absurd hcomplete (hspares.not_complete_unlink h.opens h.entry)
  obtain ⟨hnone, hopens⟩ := hspares.of_rmdir h.opens h.entry hrmdir
  exact ⟨hnone, fun dir n e hfind hroot => (hright hfind hroot).sentBack hlaw hsettled hfind,
    hopens, hsame ▸ hopens⟩

variable {listFollows : Bool}

theorem Complete.ftpLast {st : Deleting} (hlaw : names.Lawful) (hright : names.Right pl name .dir)
    (h : names.Stands srv parentPath text pl name) (hst : st.srv = srv)
    (hcomplete : Complete (pl ++ [name])
      (names.ftpRmEx listFollows depth (childPath parentPath text) st).2) :
    Complete (pl ++ [name]) (rmdir (childPath (names.dir parentPath) name)
      (names.ftpList listFollows depth (childPath parentPath text) st)).2 := by
  have hopen : openDir st.srv (names.dir (childPath parentPath text)) = some (pl ++ [name]) := by
    rw [hst]
    exact hright.opens hlaw h.opens h.entry h.shown
  rw [Names.ftpRmEx_of_some hopen, hlaw.dir, h.sent hright, Retriver.ftpLast] at hcomplete
  split at hcomplete
  · next habort =>
    rw [hcomplete.1] at habort
    cases habort
  · simp only at hcomplete
    split at hcomplete
    · exact hcomplete
    · cases hcomplete.1

theorem Spares.ftpRmEx {safe : Loc → QString → Entry → Prop} {path : QString} {st : Deleting}
    (h : Spares safe srv (names.ftpList listFollows depth path st)) (hst : Spares safe srv st)
    (hrmdir : Misses safe IsDir srv (names.dir path))
    (hunlink : Misses safe IsNoDir srv (names.file path)) :
    Spares safe srv (names.ftpRmEx listFollows depth path st).2 := by
  cases hopen : openDir st.srv (names.dir path) with
  | none =>
    rw [Names.ftpRmEx_of_none hopen]
    exact hst.unlink hunlink
  | some dir =>
    rw [Names.ftpRmEx_of_some hopen]
    exact h.ftpLast hrmdir

theorem ftp_right_of_complete (hlaw : names.Lawful) (hsettled : names.Settled FtpHits srv)
    (h : names.Stands srv parentPath text pl name)
    (hcomplete : Complete (pl ++ [name])
      (names.ftpRmEx listFollows depth (childPath parentPath text) ⟨srv, [], false⟩).2)
    {dir : Loc} {n : QString} (hfind : srv.find dir n = some .dir)
    (hroot : pl ++ [name] <+: dir ++ [n]) : names.Right dir n .dir := by
  have hunlink : ∀ path, Misses (fun dir n e => e = .dir ∧ ¬ names.Right dir n e) IsNoDir srv path :=
    fun _ _ _ _ _ _ hne hsafe => hne hsafe.1
  have hrmdir : ∀ {path dir n text}, openDir srv (names.dir path) = some dir →
      srv.find dir n = some .dir → names.shown dir (n, .dir) = some text →
      Misses (fun dir n e => e = .dir ∧ ¬ names.Right dir n e) IsDir srv
        (names.dir (childPath path text)) := by
    intro path dir n text hopen hfind htext
    have hwrong : Misses (fun dir n e => ¬ names.Right dir n e) IsDir srv
        (names.sent .dir (childPath path text)) :=
      hsettled.misses hlaw (by rwa [Names.sent_dir]) hfind (by simp) htext
        fun _ he' => iff_of_true rfl he'
    rw [Names.sent_dir] at hwrong
    exact fun d n' e' hr he' hdir hsafe => hwrong d n' e' hr he' hdir hsafe.2
  have hspares : Spares (fun dir n e => e = .dir ∧ ¬ names.Right dir n e) srv
      (names.ftpList listFollows depth (childPath parentPath text) ⟨srv, [], false⟩) :=
    Spares.ftpList (follows_all names srv)
      (fun _ _ _ _ _ hopen hfind htext => ⟨hrmdir hopen hfind htext, hunlink _⟩)
      (fun _ _ _ _ _ _ _ _ => hunlink _) (Spares.start _ srv) trivial
  have hall := (hspares.ftpRmEx (Spares.start _ srv) (hrmdir h.opens h.entry h.shown)
    (hunlink _)).not_safe hcomplete hfind hroot
  by_contra hwrong
  exact hall ⟨rfl, hwrong⟩

/-- The paths below `root` that go out alike for directories and for files. -/
def OneSpelling (names : Names) (srv : Server) (root : Loc) (path : QString) : Prop :=
  OpensBelow names srv root path ∧ names.file path = names.dir path

theorem Spares.ftpList_right {safe : Loc → QString → Entry → Prop} {root : Loc} {path : QString}
    (hlaw : names.Lawful) (hsettled : names.Settled FtpHits srv)
    (hright : ∀ dir n, srv.find dir n = some .dir → root <+: dir → names.Right dir n .dir)
    (hsafe : ∀ dir n, root <+: dir → ¬ safe dir n .dir)
    (hfile : ∀ path dir n text, openDir srv (names.file path) = some dir → root <+: dir →
      srv.find dir n = some .reg → names.shown dir (n, .reg) = some text →
      Misses safe IsNoDir srv (names.file (childPath path text)))
    (hpath : OneSpelling names srv root path) :
    Spares safe srv (names.ftpList listFollows depth path ⟨srv, [], false⟩) := by
  have hagree : ∀ {path dir n text}, openDir srv (names.dir path) = some dir → root <+: dir →
      srv.find dir n = some .dir → names.shown dir (n, .dir) = some text →
      names.file path = names.dir path →
      names.file (childPath path text) = names.dir (childPath path text) := by
    intro path dir n text hopen hroot hfind htext hsame
    obtain ⟨text', htext', hsent⟩ := hright dir n hfind hroot
    obtain rfl := Option.some.inj (htext.symm.trans htext')
    rw [Names.sent_dir] at hsent
    rw [hlaw.file, hlaw.dir, hsame, hsettled.agree hfind htext hsent, hsent]
  have hfollows : Follows names srv (OneSpelling names srv root) :=
    fun path dir n text hvisit hopen hfind htext =>
      ⟨follows_below hlaw hright path dir n text hvisit.1 hopen hfind htext,
        hagree hopen (hvisit.1 dir hopen) hfind htext hvisit.2⟩
  refine Spares.ftpList hfollows ?_ ?_ (Spares.start _ srv) hpath
  · intro path dir n text hvisit hopen hfind htext
    have hroot := hvisit.1 dir hopen
    have hdir : Misses safe Any srv (names.sent .dir (childPath path text)) :=
      (hright dir n hfind hroot).misses hlaw (by rwa [Names.sent_dir]) hfind htext
        fun _ => hsafe dir n hroot
    rw [Names.sent_dir] at hdir
    rw [hagree hopen hroot hfind htext hvisit.2]
    exact ⟨hdir.mono fun _ _ => trivial, hdir.mono fun _ _ => trivial⟩
  · intro path dir n text hvisit hopen hfind htext
    exact hfile path dir n text (hvisit.2 ▸ hopen) (hvisit.1 dir hopen) hfind htext

/-- **A complete delete by FTP** takes all that `Clearable` says. -/
theorem ftp_clearable (hlaw : names.Lawful) (hsettled : names.Settled FtpHits srv)
    (h : names.Stands srv parentPath text pl name)
    (hsame : names.file parentPath = names.dir parentPath)
    (hcomplete : Complete (pl ++ [name])
      (names.ftpRmEx listFollows depth (childPath parentPath text) ⟨srv, [], false⟩).2) :
    Clearable names IsSpecialOrLink srv parentPath name pl := by
  have hdirs : ∀ {dir n}, srv.find dir n = some .dir → pl ++ [name] <+: dir ++ [n] →
      names.Right dir n .dir :=
    fun hfind hroot => ftp_right_of_complete hlaw hsettled h hcomplete hfind hroot
  have hbelow : ∀ dir n, srv.find dir n = some .dir → pl ++ [name] <+: dir →
      names.Right dir n .dir :=
    fun dir n hfind hroot => hdirs hfind (hroot.trans (List.prefix_append _ _))
  have hselected := hdirs h.entry List.prefix_rfl
  have hpath : OneSpelling names srv (pl ++ [name]) (childPath parentPath text) := by
    refine ⟨h.opensBelow hlaw hselected, ?_⟩
    rw [hlaw.file, hlaw.dir, hsame, h.sent hselected,
      hsettled.agree h.entry h.shown (h.sent hselected)]
  have hsentFile : ∀ path, names.sent .reg path = names.file path :=
    fun path => Names.sent_file names path (by simp)
  -- The other entries have right names as well,
  have hfiles : ∀ {dir n e}, srv.find dir n = some e → e ≠ .dir → pl ++ [name] <+: dir →
      names.Right dir n e := by
    intro dir n e hfind hne hroot
    have hspares : Spares (fun dir n e => e ≠ .dir ∧ ¬ names.Right dir n e) srv
        (names.ftpList listFollows depth (childPath parentPath text) ⟨srv, [], false⟩) := by
      refine Spares.ftpList_right hlaw hsettled hbelow (fun _ _ _ hsafe => hsafe.1 rfl) ?_ hpath
      intro path dir n shown hopen hroot hfind hshown
      have hwrong : Misses (fun dir n e => ¬ names.Right dir n e) IsNoDir srv
          (names.sent .reg (childPath path shown)) :=
        hsettled.misses hlaw (by rwa [hsentFile]) hfind (by simp) hshown
          fun _ he' => iff_of_false (by simp) he'
      rw [hsentFile] at hwrong
      exact fun d n' e' hr he' hno hsafe => hwrong d n' e' hr he' hno hsafe.2
    have hrmdir := hcomplete.ftpLast hlaw hselected h rfl
    have hall := (hspares.rmdir fun _ _ _ _ _ hdir hsafe => hsafe.1 hdir).not_safe hrmdir hfind
      (hroot.trans (List.prefix_append _ _))
    by_contra hwrong
    exact hall ⟨hne, hwrong⟩
  -- and so nothing is taken for another entry.
  have hspares : Spares (Kept IsSpecialOrLink (pl ++ [name])) srv
      (names.ftpList listFollows depth (childPath parentPath text) ⟨srv, [], false⟩) := by
    have hdir : ¬ IsSpecialOrLink .dir := by simp [IsSpecialOrLink]
    have hreg : ¬ IsSpecialOrLink .reg := by simp [IsSpecialOrLink]
    refine Spares.ftpList_right hlaw hsettled hbelow
      (fun _ _ hroot hkept => hkept.elim hdir fun hnot => hnot hroot) ?_ hpath
    intro path dir n shown hopen hroot hfind hshown
    have hmiss : Misses (Kept IsSpecialOrLink (pl ++ [name])) IsNoDir srv
        (names.sent .reg (childPath path shown)) :=
      (hfiles hfind (by simp) hroot).misses hlaw (by rwa [hsentFile]) hfind hshown
        fun _ hkept => hkept.elim hreg fun hnot => hnot hroot
    rwa [hsentFile] at hmiss
  obtain ⟨hnone, hopens⟩ :=
    hspares.of_rmdir h.opens h.entry (hcomplete.ftpLast hlaw hselected h rfl)
  refine ⟨hnone, fun dir n e hfind hroot => ?_, hopens, hsame ▸ hopens⟩
  by_cases hdir : e = .dir
  · subst hdir
    exact (hdirs hfind hroot).sentBack hlaw hsettled hfind
  · rcases List.prefix_concat_iff.mp hroot with heq | hroot
    · obtain ⟨rfl, hn⟩ := List.append_inj' heq rfl
      obtain rfl := List.singleton_inj.mp hn
      exact absurd (Option.some.inj (hfind.symm.trans h.entry)) hdir
    · exact (hfiles hfind hdir hroot).sentBack hlaw hsettled hfind

end Retrivers

/-- The directory `/a` with an empty directory and one more entry in it. -/
def serverWith (e : Entry) : Server where
  entries := [([], ['a'], .dir), ([['a']], ['b'], .dir), ([['a']], ['c'], e)]
  maxLinks := 8
  nodup := show ([([], ['a']), ([['a']], ['b']), ([['a']], ['c'])] : List (Loc × QString)).Nodup by
    decide
  named := by
    simp only [List.mem_cons, List.not_mem_nil, or_false, forall_eq_or_imp, forall_eq]
    decide

/-- The directory `/a` with the directory `é` in it, in UTF-8. -/
def accentedServer : Server where
  entries := [([], ['a'], .dir), ([['a']], [latin1 0xC3, latin1 0xA9], .dir)]
  maxLinks := 8
  nodup := by decide
  named := by decide

theorem isTree_serverWith (e : Entry) : (serverWith e).IsTree := by
  intro dir name e' h
  have hmem := Server.find_eq_some.mp h
  simp only [serverWith, List.mem_cons, Prod.mk.injEq, List.not_mem_nil, or_false] at hmem
  rcases hmem with ⟨rfl, -, -⟩ | ⟨rfl, -, -⟩ | ⟨rfl, -, -⟩ <;> rfl

/-- The lines of a server where all entries have one owner, size and date. -/
def listLine (_ : Loc) (e : QString × Entry) : Bytes :=
  (match e.2 with
    | .dir => 100
    | .link _ _ => 108
    | _ => 45) ::
  toAscii "rwxr-xr-x 1 a b 5 Aug 10 2004 ".toList ++ toAscii e.1 ++ eol

theorem keepsSlashes_utf8Short : Names.KeepsSlashes utf8Short := fun path text => by
  show (path ++ '/' :: text).flatMap String.utf8EncodeChar = _
  rw [List.flatMap_append, List.flatMap_cons]
  rfl

theorem find_serverWith {e : Entry} {dir : Loc} {name : QString} {e' : Entry}
    (hfind : (serverWith e).find dir name = some e') :
    (dir, name, e') = ([], ['a'], .dir) ∨ (dir, name, e') = ([['a']], ['b'], .dir) ∨
      (dir, name, e') = ([['a']], ['c'], e) := by
  have hmem := Server.find_eq_some.mp hfind
  simpa [serverWith] using hmem

theorem plain_serverWith (e : Entry) : (sshNames utf8Short).Plain (serverWith e) := by
  intro dir name e' hfind _
  rcases find_serverWith hfind with heq | heq | heq
  · cases heq
    exact ⟨by decide, by decide, by decide⟩
  · cases heq
    exact ⟨by decide, by decide, by decide⟩
  · cases heq
    have hshown : utf8Short.toUnicode (toAscii ['c']) = ['c'] := by decide
    exact ⟨congrArg some hshown, by decide, by decide⟩

end NullFxp.Retriver
