import NullFxp.LibFtp.Names
import NullFxp.Retriver.Outside

/-!
# Names that go over a connection

A server knows bytes, which stand here as the Latin-1 text that has them. The retrievers decode the
names of a listing, and the paths of their commands are encoded again: with the codec, but by FTP as
Latin-1 when the command is for a directory.
-/

open NullFxp.LibFtp Text

namespace NullFxp.Retriver

structure Names where
  /-- what the entry of a directory is called, unless its line is not understood -/
  shown : Loc → QString × Entry → Option QString
  /-- the path that goes out in a command for a directory -/
  dir : QString → QString
  /-- the path that goes out when a file is removed -/
  file : QString → QString

def sshNames (codec : Codec) : Names where
  shown _ e := some (codec.toUnicode (toAscii e.1))
  dir path := (codec.fromUnicode path).map latin1
  file path := (codec.fromUnicode path).map latin1

/-- `line` is what `LIST -a` says about the entry of a directory. A name with a newline in it takes
two lines, and neither of them has the name. -/
def ftpNames (codec : Codec) (line : Loc → QString × Entry → Bytes) : Names where
  shown dir e :=
    match completeLines (line dir e) with
    | [bytes] => (entryOf codec bytes).map FTPFileInfo.name
    | _ => none
  dir path := (toAscii path).map latin1
  file path := (codec.fromUnicode path).map latin1

theorem ftpNames_written {codec : Codec} (hascii : codec.AsciiBased)
    (line : Loc → QString × Entry → Bytes) {path : QString} (hzero : 0 ∉ codec.fromUnicode path) :
    NameCmd.chdir.written codec path =
        some [NameCmd.chdir.cmdBytes (toAscii ((ftpNames codec line).dir path))] ∧
      NameCmd.remove.written codec path =
        some [NameCmd.remove.cmdBytes (toAscii ((ftpNames codec line).file path))] := by
  constructor
  · rw [NameCmd.written_latin1 (by simp [NameCmd.Encodes]), ftpNames, toAscii_map_latin1]
  · rw [NameCmd.written_encoded (.inr rfl), encodeCMD_name hascii rfl hzero, ftpNames,
      toAscii_map_latin1]

namespace Names

variable (names : Names)

/-- The parts of a path are sent one by one, and dots as dots. -/
structure Lawful : Prop where
  dir : ∀ path text, names.dir (childPath path text) = childPath (names.dir path) (names.dir text)
  file : ∀ path text, names.file (childPath path text) = childPath (names.file path) (names.file text)
  dots : names.dir Server.dot = Server.dot ∧ names.dir Server.dotdot = Server.dotdot ∧
    names.file Server.dot = Server.dot ∧ names.file Server.dotdot = Server.dotdot

/-- The codec encodes the parts of a path one by one. -/
def KeepsSlashes (codec : Codec) : Prop :=
  ∀ path text, codec.fromUnicode (childPath path text) =
    codec.fromUnicode path ++ 47 :: codec.fromUnicode text

section Codec

variable {codec : Codec}

theorem KeepsSlashes.nil (h : KeepsSlashes codec) (hascii : codec.AsciiBased) :
    codec.fromUnicode [] = [] := by
  have hslash : codec.fromUnicode ['/'] = codec.fromUnicode [] ++ 47 :: codec.fromUnicode [] := h [] []
  have hfirst : codec.fromUnicode ['/'] = 47 :: codec.fromUnicode [] := by
    have := hascii ['/'] [] [] (by simp) (by simp)
    rwa [List.append_nil, List.append_nil, show toAscii ['/'] = [47] by decide,
      show toAscii [] = [] by rfl, List.append_nil] at this
  have hlength := congrArg List.length (hslash.symm.trans hfirst)
  rw [List.length_append, List.length_cons] at hlength
  exact List.eq_nil_of_length_eq_zero (by omega)

theorem KeepsSlashes.ascii (h : KeepsSlashes codec) (hascii : codec.AsciiBased) {text : QString}
    (htext : ∀ c ∈ text, c.toNat < 128) : codec.fromUnicode text = toAscii text := by
  have := hascii text [] [] htext (by simp)
  rwa [List.append_nil, List.append_nil, h.nil hascii, List.append_nil,
    show toAscii [] = [] by rfl, List.append_nil] at this

theorem latin1_childPath (h : KeepsSlashes codec) (path text : QString) :
    (codec.fromUnicode (childPath path text)).map latin1 =
      childPath ((codec.fromUnicode path).map latin1) ((codec.fromUnicode text).map latin1) := by
  rw [h, List.map_append, List.map_cons, childPath]
  rfl

theorem sshNames_lawful (h : KeepsSlashes codec) (hascii : codec.AsciiBased) :
    (sshNames codec).Lawful := by
  have hdot : (codec.fromUnicode Server.dot).map latin1 = Server.dot := by
    rw [h.ascii hascii (by simp [Server.dot])]
    decide
  have hdotdot : (codec.fromUnicode Server.dotdot).map latin1 = Server.dotdot := by
    rw [h.ascii hascii (by simp [Server.dotdot])]
    decide
  exact ⟨latin1_childPath h, latin1_childPath h, hdot, hdotdot, hdot, hdotdot⟩

theorem ftpNames_lawful (h : KeepsSlashes codec) (hascii : codec.AsciiBased)
    (line : Loc → QString × Entry → Bytes) : (ftpNames codec line).Lawful := by
  have hdot : (toAscii Server.dot).map latin1 = Server.dot := by decide
  have hdotdot : (toAscii Server.dotdot).map latin1 = Server.dotdot := by decide
  refine ⟨fun path text => ?_, latin1_childPath h, hdot, hdotdot,
    (sshNames_lawful h hascii).dots.2.2⟩
  show (toAscii (path ++ '/' :: text)).map latin1 = _
  rw [toAscii_append, List.map_append]
  rfl

end Codec

/-! ## The walks -/

/-- A listing of what the path leads to, with the names that are shown. -/
def listing (srv : Server) (path : QString) (es : List (QString × Entry)) :
    List (QString × Entry) :=
  match openDir srv path with
  | none => []
  | some dir => es.filterMap fun e => (names.shown dir e).map fun name => (name, e.2)

def isDots (name : QString) : Bool := name = Server.dot || name = Server.dotdot

def sshEntry (rm : QString → Deleting → Deleting) (path : QString) (st : Deleting)
    (e : QString × Entry) : Deleting :=
  match e.2 with
  | .dir => if isDots e.1 then st else rm (childPath path e.1) st
  | .reg | .link _ _ => (unlink (names.file (childPath path e.1)) st).2
  | .special => st

/-- `SSHDirRetriver::rm_file_or_directory_recursively_ex` -/
def sshRmEx : Nat → QString → Deleting → Deleting
  | 0, path, st => sshLast (names.dir path) st
  | depth + 1, path, st =>
    sshLast (names.dir path)
      ((names.listing st.srv (names.dir path) (fxpDoLsDir st.srv (names.dir path))).reverse.foldl
        (names.sshEntry (sshRmEx depth) path) st)

def ftpEntry (rm : QString → Deleting → Bool × Deleting) (path : QString) (st : Deleting)
    (e : QString × Entry) : Deleting :=
  if st.aborted || isDots e.1 then st
  else match e.2 with
    | .link _ _ => st
    | .dir =>
      let (ok, st) := rm (childPath path e.1) st
      if ok then st else { st with aborted := true }
    | _ => (unlink (names.file (childPath path e.1)) st).2

/-- `FTPDirRetriver::rm_file_or_directory_recursively_ex` -/
def ftpRmEx (listFollows : Bool) : Nat → QString → Deleting → Bool × Deleting
  | 0, path, st =>
    if (openDir st.srv (names.dir path)).isSome then ftpLast (names.dir path) st
    else unlink (names.file path) st
  | depth + 1, path, st =>
    if (openDir st.srv (names.dir path)).isSome then
      ftpLast (names.dir path)
        ((names.listing st.srv (names.dir path)
          (lista listFollows st.srv (names.dir path))).reverse.foldl
            (names.ftpEntry (ftpRmEx listFollows depth) path) st)
    else unlink (names.file path) st

/-- The loop over the entries of a directory. -/
def sshList : Nat → QString → Deleting → Deleting
  | 0, _, st => st
  | depth + 1, path, st =>
    (names.listing st.srv (names.dir path) (fxpDoLsDir st.srv (names.dir path))).reverse.foldl
      (names.sshEntry (names.sshRmEx depth) path) st

def ftpList (listFollows : Bool) : Nat → QString → Deleting → Deleting
  | 0, _, st => st
  | depth + 1, path, st =>
    (names.listing st.srv (names.dir path) (lista listFollows st.srv (names.dir path))).reverse.foldl
      (names.ftpEntry (names.ftpRmEx listFollows depth) path) st

section Walks

variable {names : Names} {srv : Server} {path : QString} {dir : Loc} {st : Deleting} {depth : Nat}
  {listFollows : Bool}

theorem sshRmEx_eq : names.sshRmEx depth path st =
    sshLast (names.dir path) (names.sshList depth path st) := by
  cases depth with
  | zero => rfl
  | succ depth => rfl

theorem ftpRmEx_of_some (h : openDir st.srv (names.dir path) = some dir) :
    names.ftpRmEx listFollows depth path st =
      ftpLast (names.dir path) (names.ftpList listFollows depth path st) := by
  cases depth with
  | zero => rw [ftpRmEx, h]; rfl
  | succ depth => rw [ftpRmEx, h]; rfl

theorem ftpRmEx_of_none (h : openDir st.srv (names.dir path) = none) :
    names.ftpRmEx listFollows depth path st = unlink (names.file path) st := by
  cases depth with
  | zero => rw [ftpRmEx, h]; rfl
  | succ depth => rw [ftpRmEx, h]; rfl

theorem foldl_listing (hopen : openDir srv path = some dir)
    (f : Deleting → QString × Entry → Deleting) (es : List (QString × Entry)) (st : Deleting) :
    (names.listing srv path es).reverse.foldl f st =
      es.reverse.foldl (fun st e =>
        match names.shown dir e with
        | some name => f st (name, e.2)
        | none => st) st := by
  rw [listing, hopen, ← List.filterMap_reverse, List.foldl_filterMap]
  congr 1
  funext st e
  cases names.shown dir e <;> rfl

theorem mem_listing {es : List (QString × Entry)} {name : QString} {e : Entry}
    (h : (name, e) ∈ names.listing srv path es) :
    ∃ dir n, openDir srv path = some dir ∧ (n, e) ∈ es ∧ names.shown dir (n, e) = some name := by
  unfold listing at h
  split at h
  · exact absurd h List.not_mem_nil
  · next dir hopen =>
    obtain ⟨⟨n, e'⟩, he, hshown⟩ := List.mem_filterMap.mp h
    obtain ⟨text, htext, heq⟩ := Option.map_eq_some_iff.mp hshown
    obtain ⟨rfl, rfl⟩ := Prod.mk.inj heq
    exact ⟨dir, n, hopen, he, htext⟩

theorem isDots_of_isName {name : QString} (h : IsName name) : isDots name = false := by
  simp [isDots, Server.dot, Server.dotdot, h.2.2.1, h.2.2.2]

end Walks

/-! ## Names that stay as they are -/

/-- The names of the server are shown, and go out, as they are. Special files need not be shown. -/
def Plain (srv : Server) : Prop :=
  ∀ dir name e, srv.find dir name = some e → e ≠ .special →
    names.shown dir (name, e) = some name ∧ names.dir name = name ∧ names.file name = name

section Plain

variable {names : Names} {srv : Server} {path : QString} {st : Deleting} {depth : Nat}

theorem foldl_congr_sub {f g : Deleting → QString × Entry → Deleting}
    {es : List (QString × Entry)} (hsub : st.srv.Sub srv)
    (hg : ∀ st' e, st'.srv.Sub srv → (g st' e).srv.Sub srv)
    (heq : ∀ st' e, e ∈ es → st'.srv.Sub srv → f st' e = g st' e) : es.foldl f st = es.foldl g st :=
  foldl_congr_keeps (P := fun st' => st'.srv.Sub srv)
    (fun st' e he hst' => by
      rw [heq st' e he hst']
      exact hg st' e hst') heq hsub

theorem fxpDoLsDir_of_none (h : openDir srv path = none) : fxpDoLsDir srv path = [] := by
  rw [fxpDoLsDir, h]

theorem listing_of_none (h : openDir srv path = none) (es : List (QString × Entry)) :
    names.listing srv path es = [] := by
  rw [listing, h]

theorem sshRmEx_plain (hlaw : names.Lawful) (h : names.Plain srv) (hsub : st.srv.Sub srv)
    (hdir : names.dir path = path) (hfile : names.file path = path) :
    names.sshRmEx depth path st = Retriver.sshRmEx depth path st := by
  induction depth generalizing path st with
  | zero => rw [sshRmEx, Retriver.sshRmEx, hdir]
  | succ depth ih =>
    rw [sshRmEx, Retriver.sshRmEx, hdir]
    cases hopen : openDir st.srv path with
    | none =>
      rw [listing_of_none hopen, fxpDoLsDir_of_none hopen]
      rfl
    | some dir =>
      rw [foldl_listing hopen]
      congr 1
      refine foldl_congr_sub hsub (fun st' e hst' => sshEntry_sub hst') fun st' e he hst' => ?_
      obtain ⟨dir', hdir', he⟩ := mem_fxpDoLsDir (List.mem_reverse.mp he)
      obtain rfl := Option.some.inj (hopen.symm.trans hdir')
      have hfind := hsub.find (Server.mem_children.mp he)
      obtain ⟨name, e⟩ := e
      have hdots := isDots_of_isName (Server.find_isName hfind)
      by_cases hspecial : e = .special
      · subst hspecial
        simp only [Retriver.sshEntry]
        split <;> rfl
      obtain ⟨hshown, hd, hf⟩ := h dir name e hfind hspecial
      have hchildDir : names.dir (childPath path name) = childPath path name := by
        rw [hlaw.dir, hdir, hd]
      have hchildFile : names.file (childPath path name) = childPath path name := by
        rw [hlaw.file, hfile, hf]
      simp only [hshown, sshEntry, Retriver.sshEntry]
      cases e with
      | dir => simp only [hdots, Bool.false_eq_true, if_false, ih hst' hchildDir hchildFile]
      | reg => simp only [hchildFile]
      | link absolute target => simp only [hchildFile]
      | special => exact absurd rfl hspecial

theorem ftpRmEx_plain {listFollows : Bool} (hlaw : names.Lawful) (h : names.Plain srv)
    (hsub : st.srv.Sub srv) (hdir : names.dir path = path) (hfile : names.file path = path) :
    names.ftpRmEx listFollows depth path st = Retriver.ftpRmEx listFollows depth path st := by
  induction depth generalizing path st with
  | zero => rw [ftpRmEx, Retriver.ftpRmEx, hdir, hfile]
  | succ depth ih =>
    rw [ftpRmEx, Retriver.ftpRmEx, hdir, hfile]
    cases hopen : openDir st.srv path with
    | none => rfl
    | some dir =>
      rw [foldl_listing hopen]
      congr 2
      refine foldl_congr_sub hsub (fun st' e hst' => ftpEntry_sub hst') fun st' e he hst' => ?_
      have hspecial := lista_not_special (List.mem_reverse.mp he)
      obtain ⟨dir', hdir', he⟩ := mem_lista (List.mem_reverse.mp he)
      obtain rfl := Option.some.inj (hopen.symm.trans hdir')
      have hfind := hsub.find (Server.mem_children.mp he)
      obtain ⟨name, e⟩ := e
      have hdots := isDots_of_isName (Server.find_isName hfind)
      obtain ⟨hshown, hd, hf⟩ := h dir name e hfind hspecial
      have hchildDir : names.dir (childPath path name) = childPath path name := by
        rw [hlaw.dir, hdir, hd]
      have hchildFile : names.file (childPath path name) = childPath path name := by
        rw [hlaw.file, hfile, hf]
      simp only [hshown, ftpEntry, Retriver.ftpEntry, hdots, Bool.or_false]
      split
      · rfl
      cases e with
      | dir => simp only [ih hst' hchildDir hchildFile]
      | reg => simp only [hchildFile]
      | link absolute target => rfl
      | special => exact absurd rfl hspecial

end Plain

end Names

end NullFxp.Retriver
