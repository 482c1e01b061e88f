import NullFxp.Transportor.FtpStore

/-!
# A whole tree on an FTP server

A server does not make a directory that is there already, and then the program stops. Otherwise
all that was selected is on the server in the end.
-/

open Worklist

namespace NullFxp.Transportor

/-! ## A loop, seen through a part of its world -/

section View

variable {σ τ : Type} (f : σ → τ)

def State.view (s : State σ) : State τ where
  readyQueue := s.readyQueue
  doneQueue := s.doneQueue
  errorCode := s.errorCode
  errorString := s.errorString
  userCanceled := s.userCanceled
  fileConflictResolveMethod := s.fileConflictResolveMethod
  calls := s.calls
  world := f s.world

/-- What the second loop does is what is seen of the first. -/
structure Loop.Viewed (lp : Loop σ) (lp' : Loop τ) : Prop where
  connect : ∀ w, lp'.connect (f w) = ((lp.connect w).1, f (lp.connect w).2)
  fileToDir : ∀ src dest w, lp'.fileToDir src dest (f w) =
    (lp.fileToDir src dest w).map (Prod.map id f)
  dirToDir : ∀ src dest w, lp'.dirToDir src dest (f w) =
    (lp.dirToDir src dest w).map (Prod.map id f)
  dirFirst : lp'.dirFirst = lp.dirFirst
  list : ∀ src w, lp'.list src (f w) = (lp.list src w).map (Prod.map id f)
  mkdir : ∀ path w, lp'.mkdir path (f w) = (lp.mkdir path w).map f
  copyFile : ∀ src dest s, lp'.copyFile src dest (s.view f) =
    (lp.copyFile src dest s).map (State.view f)

namespace Loop.Viewed

variable {f} {lp : Loop σ} {lp' : Loop τ} (h : lp.Viewed f lp')

include h

theorem branch (src dest : QString) (w : σ) :
    lp'.branch src dest (f w) = (lp.branch src dest w).map (Prod.map id f) := by
  have hifElse {first second : σ → Option (Bool × σ)} {first' second' : τ → Option (Bool × τ)}
      (h₁ : ∀ w, first' (f w) = (first w).map (Prod.map id f))
      (h₂ : ∀ w, second' (f w) = (second w).map (Prod.map id f)) (b₁ b₂ : Branch) :
      ifElse first' second' b₁ b₂ (f w) = (ifElse first second b₁ b₂ w).map (Prod.map id f) := by
    unfold ifElse
    rw [h₁]
    rcases first w with _ | ⟨b, w₁⟩
    · rfl
    · cases b with
      | true => rfl
      | false =>
        simp only [Option.map_some, Prod.map, Option.bind_some, id_eq, Bool.false_eq_true,
          if_false, h₂]
        rcases second w₁ with _ | ⟨c, w₂⟩
        · rfl
        · rfl
  unfold Loop.branch
  rw [h.dirFirst]
  split
  · exact hifElse (h.dirToDir src dest) (h.fileToDir src dest) _ _
  · exact hifElse (h.fileToDir src dest) (h.dirToDir src dest) _ _

theorem process (srcPkg destPkg : TaskPackage) (src dest : QString) (s : State σ) :
    lp'.process srcPkg destPkg src dest (s.view f) =
      (lp.process srcPkg destPkg src dest s).map (State.view f) := by
  unfold Loop.process
  rw [show (s.view f).world = f s.world from rfl, h.branch]
  rcases lp.branch src dest s.world with _ | ⟨b, w⟩
  · rfl
  · cases b with
    | invalid => rfl
    | file => exact h.copyFile src _ (State.called { s with world := w } _)
    | dir =>
      simp only [Option.map_some, Prod.map, Option.bind_some, id_eq, dirBranch, h.list]
      rcases lp.list src w with _ | ⟨names, w₁⟩
      · rfl
      · simp only [Option.map_some, Option.bind_some, Prod.map, id_eq, h.mkdir]
        cases lp.mkdir (childPath dest (lastPart src)) w₁ with
        | none => rfl
        | some w₂ => rfl

theorem round (s : State σ) : lp'.round (s.view f) = (lp.round s).map fun
    | .goOn s => .goOn (s.view f)
    | .broke s => .broke (s.view f) := by
  unfold Loop.round
  rw [show (s.view f).readyQueue = s.readyQueue from rfl,
    show (s.view f).world = f s.world from rfl, h.connect]
  split
  · rfl
  · next srcPkg destPkg rest hready =>
    split
    · next src srcs dest dests hsrc hdest =>
      rcases lp.connect s.world with ⟨error, w⟩
      cases error with
      | some text => rfl
      | none =>
        have hp := h.process srcPkg destPkg src dest
          (State.called { s with world := w } (.newFileStarted src dest))
        refine (congrArg (Option.map fun s => Round.goOn (afterPair srcPkg destPkg s)) hp).trans ?_
        simp only [Option.map_map]
        rfl
    · rfl

theorem loop (fuel : Nat) (s : State σ) :
    lp'.loop fuel (s.view f) = (lp.loop fuel s).map (State.view f) := by
  induction fuel generalizing s with
  | zero => rfl
  | succ fuel ih =>
    unfold Loop.loop
    rw [h.round]
    rcases lp.round s with _ | r
    · rfl
    · cases r with
      | broke s => rfl
      | goOn s =>
        simp only [Option.map_some, Option.bind_some]
        change (if s.readyQueue ≠ [] ∧ s.userCanceled = false then lp'.loop fuel (s.view f)
          else some (s.view f)) = _
        split
        · exact ih s
        · rfl

/-- **A run that is seen is a run.** -/
theorem run (fuel : Nat) (s : State σ) :
    lp'.run fuel (s.view f) = (lp.run fuel s).map (State.view f) := by
  have hl := h.loop fuel { s with errorCode := 0, errorString := "No error.".toList }
  unfold Loop.run
  refine (congrArg (Option.map finish) hl).trans ?_
  rw [Option.map_map, Option.map_map]
  congr 1
  funext t
  obtain ⟨ready, done, code, text, canceled, method, calls, w⟩ := t
  cases canceled with
  | false => rfl
  | true => rfl

end Loop.Viewed

end View

/-! ## Directories that are made once -/

/-- The directory that an entry makes. -/
def Item.made (i : Item) : Dirs :=
  match i.tree with
  | .dir _ => [i.targetPath]
  | _ => []

/-- No entry makes a directory that is there. -/
def Fresh : List Item → Dirs → Prop
  | [], _ => True
  | i :: order, w => (∀ path ∈ i.made, path ∉ w) ∧ Fresh order (i.made ++ w)

theorem fresh_iff {order : List Item} (h : (order.map Item.targetPath).Nodup) (w : Dirs) :
    Fresh order w ↔ ∀ i ∈ order, ∀ path ∈ i.made, path ∉ w := by
  induction order generalizing w with
  | nil => simp [Fresh]
  | cons i order ih =>
    obtain ⟨hi, horder⟩ := List.nodup_cons.mp h
    have hother : ∀ j ∈ order, ∀ path ∈ j.made, path ∉ i.made := by
      intro j hj path hpath hmade
      have htarget {k : Item} (hk : path ∈ k.made) : path = k.targetPath := by
        unfold Item.made at hk
        split at hk
        · exact List.mem_singleton.mp hk
        · cases hk
      apply hi
      rw [← htarget hmade, htarget hpath]
      exact List.mem_map_of_mem hj
    rw [Fresh, ih horder, List.forall_mem_cons]
    refine and_congr_right fun _ => forall₂_congr fun j hj => forall₂_congr fun path hpath => ?_
    rw [List.mem_append, not_or]
    exact ⟨And.right, fun h => ⟨hother j hj path hpath, h⟩⟩

/-- The second loop does what the first does, but makes no directory that is there. -/
def MakesOnce (lp strict : Loop Dirs) (src : QString) (t : Tree) : Prop :=
  ∀ srcPkg destPkg dest (s : State Dirs), components dest ∈ s.world →
    strict.process srcPkg destPkg src dest s =
      if (Item.made ⟨src, dest, t⟩).any s.world.contains then none
      else lp.process srcPkg destPkg src dest s

section Once

variable {lp strict : Loop Dirs} {srcPkg destPkg : TaskPackage}

theorem round_world (hconnect : ∀ w, lp.connect w = (none, w)) (hcopy : CopySucceeds lp.copyFile)
    {i : Item} {q : List Item} {s s' : State Dirs} (h : Queued srcPkg destPkg lp (i :: q) s)
    (hr : lp.round s = some (.goOn s')) : s'.world = i.made ++ s.world := by
  obtain ⟨isrc, idest, t⟩ := i
  obtain ⟨acts, -⟩ := h.sees ⟨isrc, idest, t⟩ List.mem_cons_self
  have hdest := h.dirs ⟨isrc, idest, t⟩ List.mem_cons_self
  rw [lp.round_eq h.ready (hconnect s.world), acts _ _ idest (s.called _) hdest] at hr
  obtain ⟨u, hu, hgoOn⟩ := Option.map_eq_some_iff.mp hr
  obtain rfl := Loop.Round.goOn.inj hgoOn
  cases t with
  | file =>
    obtain ⟨text, method, hc⟩ := hcopy isrc (childPath idest (lastPart isrc))
      ((s.called (.newFileStarted isrc idest)).called
        (.copy isrc (childPath idest (lastPart isrc))))
    obtain rfl := Option.some.inj (hc.symm.trans hu)
    rfl
  | special =>
    obtain rfl := Option.some.inj hu
    rfl
  | dir es =>
    obtain rfl := Option.some.inj hu
    rfl

theorem round_once (hconnect : ∀ w, lp.connect w = (none, w))
    (hsame : ∀ w, strict.connect w = (none, w)) {i : Item} {q : List Item} {s : State Dirs}
    (hquiet : MakesOnce lp strict i.src i.tree) (h : Queued srcPkg destPkg lp (i :: q) s) :
    strict.round s = if ∃ path ∈ i.made, path ∈ s.world then none else lp.round s := by
  have hdest := h.dirs i List.mem_cons_self
  rw [lp.round_eq h.ready (hconnect s.world), strict.round_eq h.ready (hsame s.world),
    hquiet _ _ i.dest (s.called _) hdest]
  split
  · next hmade =>
    rw [if_pos (by simpa [State.called] using hmade)]
    rfl
  · next hmade => rw [if_neg (by simpa [State.called] using hmade)]

/-- Below the entries that are queued, too. -/
inductive SeesOnce (lp strict : Loop Dirs) : QString → Tree → Prop where
  | intro {src : QString} {t : Tree} (once : MakesOnce lp strict src t)
      (entries : ∀ es, t = .dir es → ∀ e ∈ es, SeesOnce lp strict (childPath src e.1) e.2) :
      SeesOnce lp strict src t

theorem loop_once (hconnect : ∀ w, lp.connect w = (none, w))
    (hsame : ∀ w, strict.connect w = (none, w)) (hcopy : CopySucceeds lp.copyFile)
    {q order : List Item} (hv : Visits Item.next q order) {s : State Dirs}
    (hq : q ≠ []) (h : Queued srcPkg destPkg lp q s)
    (hsees : ∀ i ∈ q, SeesOnce lp strict i.src i.tree) (fuel : Nat) :
    (Fresh order s.world → strict.loop fuel s = lp.loop fuel s) ∧
      (¬Fresh order s.world → strict.loop fuel s = none) := by
  induction hv generalizing s fuel with
  | nil => exact absurd rfl hq
  | @cons i q order hv ih =>
    cases fuel with
    | zero => exact ⟨fun _ => rfl, fun _ => rfl⟩
    | succ fuel =>
      obtain ⟨⟨once, entries⟩, hqsees⟩ := List.forall_mem_cons.mp hsees
      have hround := round_once hconnect hsame once h
      unfold Loop.loop
      rw [hround]
      by_cases hmade : ∃ path ∈ i.made, path ∈ s.world
      · refine ⟨fun hfresh => ?_, fun _ => by rw [if_pos hmade]; rfl⟩
        obtain ⟨path, hpath, hthere⟩ := hmade
        exact absurd hthere (hfresh.1 path hpath)
      · rw [if_neg hmade]
        obtain ⟨t, hr, ht⟩ := round_spec hconnect hcopy h
        have hworld := round_world hconnect hcopy h hr
        have hnext : ∀ j ∈ i.next, SeesOnce lp strict j.src j.tree := by
          obtain ⟨isrc, idest, u⟩ := i
          cases u with
          | file => simp [Item.next]
          | special => simp [Item.next]
          | dir es => exact List.forall_mem_map.mpr fun e he => entries es rfl e he
        have hfresh : Fresh (i :: order) s.world ↔ Fresh order t.world := by
          rw [Fresh, hworld]
          exact and_iff_right fun path hpath hthere => hmade ⟨path, hpath, hthere⟩
        rw [hr, Option.bind_some, Option.bind_some, hfresh]
        by_cases hempty : q ++ i.next = []
        · rw [hempty] at hv
          cases hv
          have hready : t.readyQueue = [] := by rw [ht.queued.ready, hempty, List.map_nil]
          simp [hready, Fresh]
        · have hready : t.readyQueue ≠ [] := by
            rw [ht.queued.ready]
            simpa using hempty
          simp only [hready, ht.queued.goesOn, ne_eq, not_false_eq_true, and_self, if_true]
          exact ih hempty ht.queued (List.forall_mem_append.mpr ⟨hqsees, hnext⟩) fuel

end Once

/-! ## A server that makes directories once -/

/-- `550` for a directory that is there -/
def Dirs.mkdirOnce (path : QString) (w : Dirs) : Bool × Dirs :=
  if w.contains (components path) then (false, w) else (true, components path :: w)

def Dirs.ftpHostOnce : FtpHost Dirs := { Dirs.ftpHost with mkdir := Dirs.mkdirOnce }

def FtpServer.host : FtpHost FtpServer where
  chdir path server :=
    if server.dirs.contains (components path) then (true, { server with cwd := components path })
    else (false, server)
  list _ server := (none, server)
  mkdir path server :=
    ((Dirs.mkdirOnce path server.dirs).1,
      { server with dirs := (Dirs.mkdirOnce path server.dirs).2 })

theorem FtpServer.host_serves : FtpServer.host.Serves where
  chdir path server := by
    simp only [FtpServer.host]
    by_cases h : components path ∈ server.dirs
    · simp [h]
    · simp [h]
  mkdir path server := ⟨_, rfl⟩

def FtpServer.connected (server : FtpServer) : Option QString × FtpServer := (none, server)

namespace Tree

/-- The tree on the local disk, beside the server. -/
def diskBeside (t : Tree) : LocalDisk FtpServer :=
  ⟨fun path w => ((t.stat path w.dirs).1, w), fun path w => ((t.opendir path w.dirs).1, w),
    fun _ w => (false, w)⟩

def hostBeside (t : Tree) : SftpHost FtpServer :=
  ⟨fun path w => ((t.stat path w.dirs).1, w), fun path w => ((t.opendir path w.dirs).1, w),
    fun _ w => (false, w)⟩

end Tree

section Loops

variable {t u : Tree} {src dest : QString}
  {copy : QString → QString → State Dirs → Option (State Dirs)}

theorem once_of_prims {lp strict : Loop Dirs}
    (hfile : ∀ dest w, components dest ∈ w →
      lp.fileToDir src dest w = some (decide (u.kind = .reg), w))
    (hdir : ∀ dest w, components dest ∈ w →
      lp.dirToDir src dest w = some (decide (u.kind = .dir), w))
    (hlist : ∀ es, u = .dir es → ∀ w, lp.list src w = some (es.map Prod.fst, w))
    (hmkdir : ∀ path w, lp.mkdir path w = some (components path :: w))
    (hstrict : strict = { lp with mkdir := ftpMkdir Dirs.ftpHostOnce }) :
    MakesOnce lp strict src u := by
  subst hstrict
  intro srcPkg destPkg dest s hs
  have hbranch : lp.branch src dest s.world =
      some (match u with | .file => .file | .special => .invalid | .dir _ => .dir, s.world) := by
    cases hfirst : lp.dirFirst <;> cases u <;>
      simp [Loop.branch, Loop.ifElse, hfirst, hfile _ _ hs, hdir _ _ hs, Tree.kind]
  unfold Loop.process
  rw [show Loop.branch { lp with mkdir := ftpMkdir Dirs.ftpHostOnce } src dest s.world =
    lp.branch src dest s.world from rfl, hbranch]
  cases u with
  | file => simp [Item.made, Loop.copyBranch]
  | special => simp [Item.made]
  | dir es =>
    simp only [Option.bind_some, Loop.dirBranch, hlist es rfl, hmkdir, Item.made, Item.targetPath,
      Item.target, ftpMkdir, Dirs.ftpHostOnce, Dirs.mkdirOnce]
    by_cases hthere : components (childPath dest (lastPart src)) ∈ s.world
    · simp [hthere]
    · simp [hthere]

/-- The routine for one file, when it succeeds. -/
def copied (_ _ : QString) (s : State Dirs) : Option (State Dirs) := some s

theorem copied_succeeds : CopySucceeds copied :=
  fun _ _ s => ⟨s.errorString, s.fileConflictResolveMethod, rfl⟩

theorem seen_fileToFtp (ht : t.Named) (h : t.lookup (components src) = some u) :
    Acts (runFileToFtp connected copied t.localDisk Dirs.ftpHost) src u ∧
      MakesOnce (runFileToFtp connected copied t.localDisk Dirs.ftpHost)
        (runFileToFtp connected copied t.localDisk Dirs.ftpHostOnce) src u := by
  have hfile : ∀ dest w, components dest ∈ w →
      (runFileToFtp connected copied t.localDisk Dirs.ftpHost).fileToDir src dest w =
        some (decide (u.kind = .reg), w) := by
    intro dest w hw
    cases hk : u.kind <;> simp [runFileToFtp, andThen, isFile_spec h, dest_isFTPDir hw, hk]
  have hdir : ∀ dest w, components dest ∈ w →
      (runFileToFtp connected copied t.localDisk Dirs.ftpHost).dirToDir src dest w =
        some (decide (u.kind = .dir), w) := by
    intro dest w hw
    cases hk : u.kind <;> simp [runFileToFtp, andThen, isDir_spec h, dest_isFTPDir hw, hk]
  have hlist : ∀ es, u = .dir es → ∀ w,
      (runFileToFtp connected copied t.localDisk Dirs.ftpHost).list src w =
        some (es.map Prod.fst, w) := by
    rintro es rfl w
    exact fxpLocalDoLs_spec ht h w
  exact ⟨acts_of_prims hfile hdir hlist fun _ _ => rfl,
    once_of_prims hfile hdir hlist (fun _ _ => rfl) rfl⟩

theorem seen_sftpToFtp (ht : t.Named) (h : t.lookup (components src) = some u) :
    Acts (runSftpToFtp connected copied t.sftpHost Dirs.ftpHost) src u ∧
      MakesOnce (runSftpToFtp connected copied t.sftpHost Dirs.ftpHost)
        (runSftpToFtp connected copied t.sftpHost Dirs.ftpHostOnce) src u := by
  have hfile : ∀ dest w, components dest ∈ w →
      (runSftpToFtp connected copied t.sftpHost Dirs.ftpHost).fileToDir src dest w =
        some (decide (u.kind = .reg), w) := by
    intro dest w hw
    cases hk : u.kind <;>
      simp [runSftpToFtp, andThen, remoteIsReg, remoteIs_spec h, dest_isFTPDir hw, hk]
  have hdir : ∀ dest w, components dest ∈ w →
      (runSftpToFtp connected copied t.sftpHost Dirs.ftpHost).dirToDir src dest w =
        some (decide (u.kind = .dir), w) := by
    intro dest w hw
    cases hk : u.kind <;>
      simp [runSftpToFtp, andThen, remoteIsDir, remoteIs_spec h, dest_isFTPDir hw, hk]
  have hlist : ∀ es, u = .dir es → ∀ w,
      (runSftpToFtp connected copied t.sftpHost Dirs.ftpHost).list src w =
        some (es.map Prod.fst, w) := by
    rintro es rfl w
    exact fxpDoLsDir_spec ht h w
  exact ⟨acts_of_prims hfile hdir hlist fun _ _ => rfl,
    once_of_prims hfile hdir hlist (fun _ _ => rfl) rfl⟩

end Loops

/-! ## When nothing goes wrong with a file -/

/-- Every read before the end of the file returns something, which is written whole. -/
structure FileEnv.Smooth (env : FileEnv) : Prop where
  localOpen : env.localOpen = true
  srcOpenError : env.srcOpenError = none
  ftpCommands : env.ftpCommands = true
  read : ∀ k, 0 < env.reads k
  write : ∀ k, env.reads k ≤ env.writes k
  goesOn : ∀ k, env.cancelDuring k = false

theorem openEnv_smooth : openEnv.Smooth :=
  ⟨rfl, rfl, rfl, fun _ => (by decide : (0 : Int) < 8192), fun _ => Int.le_refl 8192, fun _ => rfl⟩

section Smooth

variable {env : FileEnv} {check : Int → Int → Check}

theorem FileEnv.Smooth.write_whole (h : env.Smooth) (k buf : Nat) (rest : Bytes) :
    ((rest.take (min (env.reads k).toNat buf)).length : Int) ≤ env.writes k := by
  have hread := h.read k
  have hwrite := h.write k
  rw [List.length_take]
  omega

theorem FileEnv.Smooth.delivers (h : env.Smooth) (checked : Bool) {buf : Nat} (hbuf : 0 < buf)
    (k : Nat) (rest : Bytes) : Delivers checked buf env k rest := by
  -- Every read takes something from the rest.
  induction hn : rest.length using Nat.strongRecOn generalizing k rest with
  | ind n ih =>
    cases rest with
    | nil => exact .done
    | cons b rest =>
      have hread := h.read k
      refine .part hread (.inr (h.write_whole k buf _)) (ih _ ?_ _ _ rfl)
      rw [← hn, List.length_drop, List.length_cons]
      omega

theorem FileEnv.Smooth.copyLoop (h : env.Smooth) (hcheck : ∀ n, check n n = .goOn) {buf : Nat}
    {fuel k : Nat} {rest out : Bytes} {pos : Nat} (hfuel : rest.length < fuel) :
    ∃ out', copyLoop check buf env fuel k rest out pos = some (out', .ended) := by
  induction fuel generalizing k rest out pos with
  | zero => omega
  | succ fuel ih =>
    have hwhole := h.write_whole k buf rest
    simp only [Transportor.copyLoop]
    split
    · exact ⟨out, rfl⟩
    · next hne =>
      have hdrop : (rest.drop (min (env.reads k).toNat buf)).length < fuel := by
        have := List.length_pos_iff.mpr hne
        rw [List.length_take] at this
        rw [List.length_drop]
        omega
      have hmin : min (env.writes k) ((rest.take (min (env.reads k).toNat buf)).length : Int) =
          (rest.take (min (env.reads k).toNat buf)).length := Int.min_eq_right hwhole
      simp only [hmin, hcheck, h.goesOn k, Bool.false_eq_true, if_false]
      exact ih hdrop

theorem FileEnv.Smooth.sendToFtp (h : env.Smooth) (hcheck : ∀ n, check n n = .goOn)
    (source : QString → Bytes) (src dest : QString) (s : State FtpServer) :
    (sendToFtp FtpServer.host source check env src dest s).map (State.view FtpServer.dirs) =
      some (s.view FtpServer.dirs) := by
  obtain ⟨out, hout⟩ : ∃ out, copyParts check 8192 env (source src) [] 0 = some (out, .ended) :=
    h.copyLoop hcheck (Nat.lt_succ_self _)
  have hdirs : (setFTPCurrentDirByFullPath FtpServer.host dest (s.world.turn src)).dirs =
      s.world.dirs := by
    simp only [setFTPCurrentDirByFullPath, FtpServer.host]
    split <;> rfl
  unfold Transportor.sendToFtp
  simp only [h.ftpCommands, if_true, hout, Option.map_some, afterPut, State.view, FtpServer.put,
    hdirs]

end Smooth

section Views

variable {t : Tree} {env : Nat → FileEnv} {source : QString → Bytes}

theorem isFTPDir_view (dest : QString) (w : FtpServer) :
    isFTPDir Dirs.ftpHostOnce dest w.dirs =
      (isFTPDir FtpServer.host dest w).map (Prod.map id FtpServer.dirs) := by
  simp only [isFTPDir, Dirs.ftpHostOnce, Dirs.ftpHost, Dirs.stat, FtpServer.host, Option.map_some]
  by_cases h : components dest ∈ w.dirs
  · simp [h]
  · simp [h]

theorem andThen_view {a b : Dirs → Option (Bool × Dirs)} {a' b' : FtpServer → Option (Bool × FtpServer)}
    (ha : ∀ w, a w.dirs = (a' w).map (Prod.map id FtpServer.dirs))
    (hb : ∀ w, b w.dirs = (b' w).map (Prod.map id FtpServer.dirs)) (w : FtpServer) :
    andThen a b w.dirs = (andThen a' b' w).map (Prod.map id FtpServer.dirs) := by
  unfold andThen
  rw [ha]
  rcases a' w with _ | ⟨x, w₁⟩
  · rfl
  · cases x with
    | false => rfl
    | true => exact hb w₁

theorem ftpMkdir_view (path : QString) (w : FtpServer) :
    ftpMkdir Dirs.ftpHostOnce path w.dirs =
      (ftpMkdir FtpServer.host path w).map FtpServer.dirs := by
  simp only [ftpMkdir, Dirs.ftpHostOnce, FtpServer.host]
  by_cases h : (Dirs.mkdirOnce path w.dirs).1 = true
  · simp [h]
  · simp [h]

theorem statEntries_view (path : QString) (names : List QString) (w : FtpServer) :
    statEntries t.localDisk path names w.dirs =
      Prod.map id FtpServer.dirs (statEntries t.diskBeside path names w) := by
  induction names with
  | nil => rfl
  | cons name names ih =>
    unfold statEntries
    split
    · exact ih
    · simp only [Tree.localDisk, Tree.diskBeside, Tree.stat] at ih ⊢
      rw [ih]
      rfl

theorem fxpLocalDoLs_view (src : QString) (w : FtpServer) :
    fxpLocalDoLs t.localDisk src w.dirs =
      (fxpLocalDoLs t.diskBeside src w).map (Prod.map id FtpServer.dirs) := by
  unfold fxpLocalDoLs
  rw [Option.map_map]
  refine congrFun (congrArg Option.map (funext fun names => ?_)) _
  exact statEntries_view src names w

theorem remoteIs_view (kind : Kind) (src : QString) (w : FtpServer) :
    remoteIs kind t.sftpHost src w.dirs =
      (remoteIs kind t.hostBeside src w).map (Prod.map id FtpServer.dirs) := by
  unfold remoteIs
  rw [Option.map_map]
  rfl

theorem isFile_view (src : QString) (w : FtpServer) :
    t.localDisk.isFile src w.dirs =
      (t.diskBeside.isFile src w).map (Prod.map id FtpServer.dirs) := rfl

theorem isDir_view (src : QString) (w : FtpServer) :
    t.localDisk.isDir src w.dirs =
      (t.diskBeside.isDir src w).map (Prod.map id FtpServer.dirs) := rfl

theorem viewed_fileToFtp (h : ∀ n, (env n).Smooth) :
    (runFileToFtp FtpServer.connected (runFileToFtpFile FtpServer.host env source) t.diskBeside
      FtpServer.host).Viewed FtpServer.dirs
      (runFileToFtp connected copied t.localDisk Dirs.ftpHostOnce) where
  connect w := rfl
  fileToDir src dest w := andThen_view (isFile_view src) (isFTPDir_view dest) w
  dirToDir src dest w := andThen_view (isDir_view src) (isFTPDir_view dest) w
  dirFirst := rfl
  list := fxpLocalDoLs_view
  mkdir := ftpMkdir_view
  copyFile src dest s := by
    have hcheck : ∀ n, checkAssert n n = .goOn := by simp [checkAssert]
    have hsend := (h s.world.turns.length).sendToFtp hcheck source src dest s
    simp only [runFileToFtp, copied, runFileToFtpFile, (h s.world.turns.length).localOpen, if_true,
      hsend]

theorem viewed_sftpToFtp (h : ∀ n, (env n).Smooth) :
    (runSftpToFtp FtpServer.connected (runSftpToFtpFile FtpServer.host env source) t.hostBeside
      FtpServer.host).Viewed FtpServer.dirs
      (runSftpToFtp connected copied t.sftpHost Dirs.ftpHostOnce) where
  connect w := rfl
  fileToDir src dest w := andThen_view (remoteIs_view .reg src) (isFTPDir_view dest) w
  dirToDir src dest w := andThen_view (remoteIs_view .dir src) (isFTPDir_view dest) w
  dirFirst := rfl
  list src w := rfl
  mkdir := ftpMkdir_view
  copyFile src dest s := by
    have hcheck : ∀ n, checkNothing n n = .goOn := by simp [checkNothing]
    have hsend := (h s.world.turns.length).sendToFtp hcheck source src dest s
    simp only [runSftpToFtp, copied, runSftpToFtpFile, (h s.world.turns.length).srcOpenError, hsend]

end Views

theorem listsNames_opendir {t : Tree} (ht : t.Named) :
    ListsNames fun path w => ((t.opendir path w.dirs).1, w) := by
  intro path server names h name hname
  obtain ⟨u, hu, hnames⟩ := Option.bind_eq_some_iff.mp h
  cases u with
  | file => cases hnames
  | special => cases hnames
  | dir es =>
    obtain rfl := Option.some.inj hnames
    simp only [List.mem_cons] at hname
    rcases hname with rfl | rfl | hname
    · decide
    · decide
    · obtain ⟨e, he, rfl⟩ := List.mem_map.mp hname
      have hn := (ht _ es hu).2 e he
      exact ⟨hn.1, hn.2.1⟩

theorem diskBeside_reads {t : Tree} (ht : t.Named) : t.diskBeside.Reads :=
  ⟨fun _ _ => rfl, fun _ _ => rfl, listsNames_opendir ht⟩

theorem hostBeside_reads {t : Tree} (ht : t.Named) : t.hostBeside.Reads :=
  ⟨fun _ _ => rfl, fun _ _ => rfl, listsNames_opendir ht⟩

/-! ## The files after an upload -/

section Files

variable {source : QString → Bytes} {files : List QString → Option Bytes} {key : List QString}

theorem foldl_store_other {calls : List Call}
    (h : ∀ src dest, .copy src dest ∈ calls → components dest ≠ key) :
    calls.foldl (Call.store source) files key = files key := by
  induction calls generalizing files with
  | nil => rfl
  | cons c calls ih =>
    rw [List.foldl_cons, ih fun src dest hc => h src dest (List.mem_cons_of_mem c hc)]
    cases c with
    | copy src dest => exact if_neg fun hkey => h src dest List.mem_cons_self hkey.symm
    | newFileStarted src dest => rfl
    | mkdir path => rfl
    | destFileExists src dest answer => rfl
    | openForWriting path => rfl

theorem foldl_store_copied {calls : List Call} {src : QString}
    (hsrc : ∀ src' dest, .copy src' dest ∈ calls → components dest = key → src' = src)
    (h : ∃ dest, .copy src dest ∈ calls ∧ components dest = key) :
    calls.foldl (Call.store source) files key = some (source src) := by
  induction calls generalizing files with
  | nil => simp at h
  | cons c calls ih =>
    have hrest := fun src' dest hc => hsrc src' dest (List.mem_cons_of_mem c hc)
    rw [List.foldl_cons]
    by_cases hlater : ∃ dest, .copy src dest ∈ calls ∧ components dest = key
    · exact ih hrest hlater
    · obtain ⟨dest, hmem, hkey⟩ := h
      obtain rfl : c = .copy src dest := by
        rcases List.mem_cons.mp hmem with hc | hmem
        · exact hc.symm
        · exact absurd ⟨dest, hmem, hkey⟩ hlater
      rw [foldl_store_other]
      · exact if_pos hkey.symm
      · intro src' dest' hc hkey'
        obtain rfl := hrest src' dest' hc hkey'
        exact hlater ⟨dest', hc, hkey'⟩

end Files

/-- What an upload of the selected paths of `t` to `D` leaves on the server. -/
structure Uploaded (t : Tree) (source : QString → Bytes) (srcPkg destPkg : TaskPackage)
    (D : QString) (before : FtpServer) (s : State FtpServer) : Prop where
  copies : TreeCopied t srcPkg destPkg D (s.view FtpServer.dirs)
  files : ∀ S ∈ srcPkg.files, ∀ r, t.lookup (components S ++ r) = some .file →
    s.world.files (components D ++ lastPart S :: r) = some (source (joinPath S r))
  others : ∀ key, (∀ S ∈ srcPkg.files, ∀ r, t.lookup (components S ++ r) = some .file →
    key ≠ components D ++ lastPart S :: r) → s.world.files key = before.files key

/-- No directory of the selected paths is on the server. -/
def NoneThere (t : Tree) (sel : List QString) (D : QString) (dirs : Dirs) : Prop :=
  ∀ S ∈ sel, ∀ r es, t.lookup (components S ++ r) = some (.dir es) →
    components D ++ lastPart S :: r ∉ dirs

section Upload

variable {t : Tree} {srcPkg destPkg : TaskPackage} {D : QString} {source : QString → Bytes}
  {before : FtpServer} {s : State FtpServer}

theorem components_target (ht : t.Named) {S : QString} (hS : lastPart S ≠ []) {r : List QString}
    {u : Tree} (hr : t.lookup (components S ++ r) = some u) :
    components (joinPath (childPath D (lastPart S)) r) = components D ++ lastPart S :: r := by
  have hnames := ht.isName hr
  have hlast : IsName (lastPart S) :=
    hnames _ (List.mem_append_left r (lastPart_mem_components hS))
  rw [components_joinPath _ _ fun n hn => hnames n (List.mem_append_right _ hn),
    components_childPath D _ hlast]
  simp

theorem uploaded_of_stored (ht : t.Named) (hslash : ∀ S ∈ srcPkg.files, lastPart S ≠ [])
    (hbase : (srcPkg.files.map lastPart).Nodup)
    (hcopied : TreeCopied t srcPkg destPkg D (s.view FtpServer.dirs))
    (hfiles : s.world.files = s.calls.foldl (Call.store source) before.files) :
    Uploaded t source srcPkg destPkg D before s := by
  refine ⟨hcopied, fun S hS r hr => ?_, fun key hkey => ?_⟩
  · rw [hfiles]
    refine foldl_store_copied (fun src' dest hc hdest => ?_) ?_
    · obtain ⟨S', hS', r', hr', rfl, rfl⟩ := (hcopied.copies src' dest).mp hc
      rw [components_target ht (hslash S' hS') hr', List.append_cancel_left_eq,
        List.cons.injEq] at hdest
      obtain rfl := List.inj_on_of_nodup_map hbase hS' hS hdest.1
      rw [hdest.2]
    · exact ⟨_, (hcopied.copies _ _).mpr ⟨S, hS, r, hr, rfl, rfl⟩,
        components_target ht (hslash S hS) hr⟩
  · rw [hfiles]
    refine foldl_store_other fun src dest hc hdest => ?_
    obtain ⟨S, hS, r, hr, rfl, rfl⟩ := (hcopied.copies src dest).mp hc
    exact hkey S hS r hr (hdest ▸ components_target ht (hslash S hS) hr)

theorem fresh_selected (ht : t.Named) (hsel : ∀ S ∈ srcPkg.files, t.lookup (components S) ≠ none)
    (hslash : ∀ S ∈ srcPkg.files, lastPart S ≠ []) (hbase : (srcPkg.files.map lastPart).Nodup)
    {order : List Item} (hv : Visits Item.next (selected t srcPkg.files D) order) (w : Dirs) :
    Fresh order w ↔ NoneThere t srcPkg.files D w := by
  have hmade : ∀ path, (∃ i ∈ order, path ∈ i.made) ↔
      ∃ S ∈ srcPkg.files, ∃ r es, t.lookup (components S ++ r) = some (.dir es) ∧
        path = components D ++ lastPart S :: r := by
    intro path
    constructor
    · rintro ⟨i, hi, hpath⟩
      obtain ⟨es, hes⟩ : ∃ es, i.tree = .dir es := by
        obtain ⟨src, dest, u⟩ := i
        cases u <;> simp_all [Item.made]
      obtain ⟨S, hS, r, u, ⟨es, rfl⟩, hr, -, htarget⟩ :=
        (mem_order_target ht hsel hv (fun u => ∃ es, u = .dir es) i.src i.target).mp
          ⟨i, hi, ⟨es, hes⟩, rfl, rfl⟩
      refine ⟨S, hS, r, es, hr, ?_⟩
      simp only [Item.made, hes, List.mem_singleton] at hpath
      rw [hpath, Item.targetPath, htarget, components_target ht (hslash S hS) hr]
    · rintro ⟨S, hS, r, es, hr, rfl⟩
      obtain ⟨i, hi, ⟨es', hes⟩, -, htarget⟩ :=
        (mem_order_target ht hsel hv (fun u => ∃ es, u = .dir es) _ _).mpr
          ⟨S, hS, r, _, ⟨es, rfl⟩, hr, rfl, rfl⟩
      refine ⟨i, hi, ?_⟩
      simp only [Item.made, hes, List.mem_singleton]
      rw [Item.targetPath, htarget, components_target ht (hslash S hS) hr]
  rw [fresh_iff (nodup_order ht hsel hslash hbase hv)]
  constructor
  · intro h S hS r es hr hthere
    obtain ⟨i, hi, hpath⟩ := (hmade _).mpr ⟨S, hS, r, es, hr, rfl⟩
    exact h i hi _ hpath hthere
  · intro h i hi path hpath hthere
    obtain ⟨S, hS, r, es, hr, rfl⟩ := (hmade path).mp ⟨i, hi, hpath⟩
    exact h S hS r es hr hthere

theorem seesOnce_of_once {lp strict : Loop Dirs} (ht : t.Named)
    (honce : ∀ src u, t.lookup (components src) = some u → MakesOnce lp strict src u)
    {src : QString} {u : Tree} (h : t.lookup (components src) = some u) :
    SeesOnce lp strict src u := by
  induction u using Tree.induction generalizing src with
  | file => exact ⟨honce src _ h, fun es hes => by cases hes⟩
  | special => exact ⟨honce src _ h, fun es hes => by cases hes⟩
  | dir es ih =>
    refine ⟨honce src _ h, fun es' hes e he => ?_⟩
    cases hes
    exact ih e he (lookup_child ht h he)

theorem run_once {lp strict : Loop Dirs} (ht : t.Named) (hconnect : ∀ w, lp.connect w = (none, w))
    (hsame : ∀ w, strict.connect w = (none, w)) (hcopy : CopySucceeds lp.copyFile)
    (hseen : ∀ src u, t.lookup (components src) = some u →
      Acts lp src u ∧ MakesOnce lp strict src u)
    (hne : srcPkg.files ≠ []) (hsel : ∀ S ∈ srcPkg.files, t.lookup (components S) ≠ none)
    (hslash : ∀ S ∈ srcPkg.files, lastPart S ≠ []) (hbase : (srcPkg.files.map lastPart).Nodup)
    (hdest : destPkg.files = [D]) {w : Dirs} (hD : components D ∈ w) (fuel : Nat) :
    (NoneThere t srcPkg.files D w →
      strict.run fuel (setTransportInfo srcPkg destPkg (State.new w)) =
        lp.run fuel (setTransportInfo srcPkg destPkg (State.new w))) ∧
      (¬NoneThere t srcPkg.files D w →
        strict.run fuel (setTransportInfo srcPkg destPkg (State.new w)) = none) := by
  obtain ⟨order, hv⟩ := closed_all.visits (selected t srcPkg.files D)
  have hq : selected t srcPkg.files D ≠ [] := by simpa [selected] using hne
  have hqueued : Queued srcPkg destPkg lp (selected t srcPkg.files D)
      (setTransportInfo srcPkg destPkg (State.new w)) := queued_selected (fun src u hu =>
    sees_of_acts ht (fun src u hu => (hseen src u hu).1) hu) hsel hdest hD
  have hsees : ∀ i ∈ selected t srcPkg.files D, SeesOnce lp strict i.src i.tree := by
    refine List.forall_mem_map.mpr fun S hS => ?_
    obtain ⟨u, hu⟩ := Option.ne_none_iff_exists'.mp (hsel S hS)
    rw [hu, Option.getD_some]
    exact seesOnce_of_once ht (fun src u hu => (hseen src u hu).2) hu
  have hloop := loop_once hconnect hsame hcopy hv hq
    (s := { setTransportInfo srcPkg destPkg (State.new w) with
      errorCode := 0, errorString := "No error.".toList })
    ⟨hqueued.ready, hqueued.sees, hqueued.dirs, hqueued.goesOn⟩ hsees fuel
  rw [← fresh_selected ht hsel hslash hbase hv]
  unfold Loop.run
  refine ⟨fun hfresh => congrArg _ (hloop.1 hfresh), fun hfresh => ?_⟩
  exact congrArg (Option.map Loop.finish) (hloop.2 hfresh)

end Upload

/-- What is known of a loop on the tree, and of the one that makes directories once. -/
structure EndsOnTree (t : Tree) (seen once : Loop Dirs) : Prop where
  connect : ∀ w, seen.connect w = (none, w)
  same : ∀ w, once.connect w = (none, w)
  copyFile : CopySucceeds seen.copyFile
  acts : ∀ src u, t.lookup (components src) = some u →
    Acts seen src u ∧ MakesOnce seen once src u

section Viewed

variable {t : Tree} (ht : t.Named) (hspecial : ∀ path, t.lookup path ≠ some .special)
  {srcPkg destPkg : TaskPackage} (hne : srcPkg.files ≠ [])
  (hsel : ∀ S ∈ srcPkg.files, t.lookup (components S) ≠ none)
  (hslash : ∀ S ∈ srcPkg.files, lastPart S ≠ []) (hbase : (srcPkg.files.map lastPart).Nodup)
  {D : QString} (hdest : destPkg.files = [D]) (hclean : IsClean D) {before : FtpServer}
  (hD : components D ∈ before.dirs) {env : Nat → FileEnv} (henv : ∀ n, (env n).Smooth)
  {source : QString → Bytes} {checked : Bool} {lp : Loop FtpServer} {seen once : Loop Dirs}
  (hsends : Sends checked env source lp) (hview : lp.Viewed FtpServer.dirs once)
  (hends : EndsOnTree t seen once)

include ht hsel hslash hdest hclean in
theorem addressed_selected (w : FtpServer) :
    Addressed (setTransportInfo srcPkg destPkg (State.new w)).readyQueue := by
  intro p hp
  simp only [setTransportInfo, State.new, hdest, List.nil_append, List.mem_flatMap, List.mem_map,
    List.mem_singleton] at hp
  obtain ⟨S, hS, d, rfl, rfl⟩ := hp
  obtain ⟨u, hu⟩ := Option.ne_none_iff_exists'.mp (hsel S hS)
  have hname := ht.isName hu _ (lastPart_mem_components (hslash S hS))
  exact ⟨by simpa [TaskPackage.setFile] using hname, by simpa [TaskPackage.setFile] using hclean⟩

include ht hspecial hne hsel hslash hbase hdest hclean hD henv hsends hview hends

theorem uploads_of_viewed :
    (NoneThere t srcPkg.files D before.dirs ↔
      ∃ fuel s, lp.run fuel (setTransportInfo srcPkg destPkg (State.new before)) = some s) ∧
    ∀ fuel s, lp.run fuel (setTransportInfo srcPkg destPkg (State.new before)) = some s →
      Uploaded t source srcPkg destPkg D before s := by
  obtain ⟨hconnect, hsame, hcopy, hseen⟩ := hends
  -- the run that is seen, with the directories only
  obtain ⟨fuel₀, s₀, hrun₀, hcopied⟩ := copies_of_sees ht hspecial hconnect hcopy
    (fun src u hu => sees_of_acts ht (fun src u hu => (hseen src u hu).1) hu) hne hsel hslash
    hbase hdest hD
  have honce := run_once ht hconnect hsame hcopy hseen hne hsel hslash hbase hdest hD
  have hseenRun := fun fuel =>
    hview.run fuel (setTransportInfo srcPkg destPkg (State.new before))
  have hfree : ∀ fuel s, lp.run fuel (setTransportInfo srcPkg destPkg (State.new before)) =
      some s → NoneThere t srcPkg.files D before.dirs := by
    intro fuel s hrun
    by_contra hthere
    have hseenNone := (hseenRun fuel).symm.trans ((honce fuel).2 hthere)
    rw [hrun] at hseenNone
    cases hseenNone
  refine ⟨⟨fun h => ?_, fun ⟨fuel, s, hrun⟩ => hfree fuel s hrun⟩, fun fuel s hrun => ?_⟩
  · have hsome := (hseenRun fuel₀).symm.trans (((honce fuel₀).1 h).trans hrun₀)
    obtain ⟨s, hrun, -⟩ := Option.map_eq_some_iff.mp hsome
    exact ⟨fuel₀, s, hrun⟩
  · have hsome := ((honce fuel).1 (hfree fuel s hrun)).symm.trans (hseenRun fuel)
    rw [hrun, Option.map_some] at hsome
    have hcopies : TreeCopied t srcPkg destPkg D (s.view FtpServer.dirs) :=
      run_unique hsome hrun₀ ▸ hcopied
    have hstored := stored_run hsends (addressed_selected ht hsel hslash hdest hclean before) rfl hrun
    have herror : s.errorCode = 0 := hcopies.errorCode
    refine uploaded_of_stored ht hslash hbase hcopies ?_
    exact hstored.whole (fun n src _ => (henv n).delivers checked (by decide) 0 _) herror
      (not_canceled hrun herror)

end Viewed

/-- The two loops to a server that makes directories once, from a tree. -/
def treeUploads (t : Tree) (env : Nat → FileEnv) (source : QString → Bytes) :
    List (Loop FtpServer) :=
  [runFileToFtp FtpServer.connected (runFileToFtpFile FtpServer.host env source) t.diskBeside
      FtpServer.host,
    runSftpToFtp FtpServer.connected (runSftpToFtpFile FtpServer.host env source) t.hostBeside
      FtpServer.host]

def exampleServer : FtpServer := ⟨[["d".toList]], fun _ => none, [], []⟩

end NullFxp.Transportor
