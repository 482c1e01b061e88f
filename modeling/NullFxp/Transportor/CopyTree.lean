import NullFxp.Transportor.Traverse

/-!
# Which files a transfer copies

The loops that start from a local or an SFTP source copy every file below what was selected.
-/

open Worklist
open scoped List

namespace NullFxp.Transportor

variable {t : Tree} {sel : List QString} {D : QString}

/-- The first entries of the queue, for selected paths that exist. -/
def selected (t : Tree) (sel : List QString) (D : QString) : List Item :=
  sel.map fun S => ⟨S, D, (t.lookup (components S)).getD .file⟩

theorem mem_order (ht : t.Named) (hsel : ∀ S ∈ sel, t.lookup (components S) ≠ none)
    {order : List Item} (hv : Visits Item.next (selected t sel D) order) (i : Item) :
    i ∈ order ↔ ∃ S ∈ sel, ∃ r,
      t.lookup (components S ++ r) = some i.tree ∧ (i.src, i.dest) = place S D r := by
  rw [(hv.perm closed_all).mem_iff, selected, List.flatMap_map, List.mem_flatMap]
  refine exists_congr fun S => and_congr_right fun hS => ?_
  obtain ⟨u, hu⟩ := Option.ne_none_iff_exists'.mp (hsel S hS)
  rw [hu, Option.getD_some, Item.all, mem_items (ht.at hu)]
  simp only [Tree.lookup_append, hu, Option.bind_some]

/-! ## Each call is made once -/

/-- The target that a call is about. -/
def Call.targetPath : Call → List QString
  | .newFileStarted src dest => components (childPath dest (lastPart src))
  | .mkdir path => components path
  | .copy _ dest => components dest
  | .destFileExists _ dest _ => components dest
  | .openForWriting path => components path

theorem targetPath_of_mem_calls {i : Item} {c : Call} (hc : c ∈ i.calls) :
    c.targetPath = i.targetPath := by
  obtain ⟨src, dest, t⟩ := i
  cases t <;> simp [Item.calls] at hc
  case file => rcases hc with rfl | rfl <;> rfl
  case special => subst hc; rfl
  case dir => rcases hc with rfl | rfl <;> rfl

theorem nodup_calls {order : List Item} (h : (order.map Item.targetPath).Nodup) :
    (order.flatMap Item.calls).Nodup := by
  induction order with
  | nil => simp
  | cons i order ih =>
    obtain ⟨hi, horder⟩ := List.nodup_cons.mp h
    rw [List.flatMap_cons, List.nodup_append]
    refine ⟨?_, ih horder, ?_⟩
    · obtain ⟨src, dest, t⟩ := i
      cases t <;> simp [Item.calls]
    · intro c hc c' hc' heq
      obtain ⟨j, hj, hcj⟩ := List.mem_flatMap.mp hc'
      apply hi
      rw [← targetPath_of_mem_calls hc, heq, targetPath_of_mem_calls hcj]
      exact List.mem_map_of_mem hj

theorem nodup_order (ht : t.Named) (hsel : ∀ S ∈ sel, t.lookup (components S) ≠ none)
    (hslash : ∀ S ∈ sel, lastPart S ≠ []) (hbase : (sel.map lastPart).Nodup)
    {order : List Item} (hv : Visits Item.next (selected t sel D) order) :
    (order.map Item.targetPath).Nodup := by
  have hnamed : ∀ i ∈ selected t sel D, i.tree.Named := by
    refine List.forall_mem_map.mpr fun S hS => ?_
    obtain ⟨u, hu⟩ := Option.ne_none_iff_exists'.mp (hsel S hS)
    rw [hu, Option.getD_some]
    exact ht.at hu
  have hname : ∀ i ∈ selected t sel D, IsName (lastPart i.src) := by
    refine List.forall_mem_map.mpr fun S hS => ?_
    obtain ⟨u, hu⟩ := Option.ne_none_iff_exists'.mp (hsel S hS)
    exact ht.isName hu _ (lastPart_mem_components (hslash S hS))
  rw [((hv.perm closed_all).map Item.targetPath).nodup_iff]
  refine nodup_flatMap_all (d := D) ?_ hnamed hname ?_ fun i hi => nodup_all (hnamed i hi) (hname i hi)
  · exact List.forall_mem_map.mpr fun _ _ => rfl
  · rw [selected, List.map_map]
    exact hbase

/-! ## Directories are made first -/

theorem calls_split {i : Item} {l₁ l₂ : List Call} {src dest : QString}
    (h : i.calls = l₁ ++ .newFileStarted src dest :: l₂) : l₁ = [] ∧ i.dest = dest := by
  obtain ⟨isrc, idest, u⟩ := i
  cases l₁ with
  | nil =>
    refine ⟨rfl, ?_⟩
    have := List.cons.inj h
    exact (Call.newFileStarted.inj this.1).2
  | cons c l₁ =>
    -- No other call starts an entry.
    have hrest := (List.cons.inj h).2
    cases u <;> cases l₁ <;> simp at hrest

theorem flatMap_calls_split {order : List Item} {l₁ l₂ : List Call} {src dest : QString}
    (h : order.flatMap Item.calls = l₁ ++ .newFileStarted src dest :: l₂) :
    ∃ o₁ i o₂, order = o₁ ++ i :: o₂ ∧ l₁ = o₁.flatMap Item.calls ∧ i.dest = dest := by
  induction order generalizing l₁ with
  | nil => simp at h
  | cons i order ih =>
    rw [List.flatMap_cons] at h
    rcases List.append_eq_append_iff.mp h with ⟨k, hk, hrest⟩ | ⟨k, hk, hrest⟩
    · obtain ⟨o₁, j, o₂, rfl, rfl, hj⟩ := ih hrest
      exact ⟨i :: o₁, j, o₂, rfl, hk, hj⟩
    · cases k with
      | nil =>
        have hnil : order.flatMap Item.calls = [] ++ .newFileStarted src dest :: l₂ := by
          simpa using hrest.symm
        obtain ⟨o₁, j, o₂, rfl, hl, hj⟩ := ih hnil
        refine ⟨i :: o₁, j, o₂, rfl, ?_, hj⟩
        rw [List.flatMap_cons, ← hl, hk]
        simp
      | cons c k =>
        obtain ⟨rfl, -⟩ := List.cons.inj hrest
        obtain ⟨rfl, hdest⟩ := calls_split hk
        exact ⟨[], i, order, rfl, rfl, hdest⟩

theorem mkdir_before {order : List Item} (hv : Visits Item.next (selected t sel D) order)
    {l₁ l₂ : List Call} {src dest : QString}
    (h : order.flatMap Item.calls = l₁ ++ .newFileStarted src dest :: l₂) :
    dest = D ∨ .mkdir dest ∈ l₁ := by
  obtain ⟨o₁, i, o₂, horder, rfl, rfl⟩ := flatMap_calls_split h
  rcases hv.after_parent horder with hi | ⟨p, hp, hip⟩
  · obtain ⟨S, -, rfl⟩ := List.mem_map.mp hi
    exact .inl rfl
  · refine .inr (List.mem_flatMap.mpr ⟨p, hp, ?_⟩)
    obtain ⟨psrc, pdest, u⟩ := p
    cases u with
    | file => simp [Item.next] at hip
    | special => simp [Item.next] at hip
    | dir es =>
      obtain ⟨e, -, rfl⟩ := List.mem_map.mp hip
      simp [Item.calls]

/-! ## The whole tree -/

def Call.started : Call → Option (QString × QString)
  | .newFileStarted src dest => some (src, dest)
  | _ => none

theorem filterMap_started (order : List Item) :
    (order.flatMap Item.calls).filterMap Call.started = order.map fun i => (i.src, i.dest) := by
  induction order with
  | nil => rfl
  | cons i order ih =>
    rw [List.flatMap_cons, List.filterMap_append, ih, List.map_cons]
    obtain ⟨src, dest, u⟩ := i
    cases u <;> rfl

/-- The run `s` has copied all that is below the selected paths of `t` to `D`. -/
structure TreeCopied (t : Tree) (srcPkg destPkg : TaskPackage) (D : QString) (s : State Dirs) :
    Prop where
  ready : s.readyQueue = []
  errorCode : s.errorCode = 0
  /-- No file is copied twice, and no directory is made twice. -/
  once : s.calls.Nodup
  copies : ∀ src dest, .copy src dest ∈ s.calls ↔
    ∃ S ∈ srcPkg.files, ∃ r, t.lookup (components S ++ r) = some .file ∧
      src = joinPath S r ∧ dest = joinPath (childPath D (lastPart S)) r
  mkdirs : ∀ path, .mkdir path ∈ s.calls ↔
    ∃ S ∈ srcPkg.files, ∃ r es, t.lookup (components S ++ r) = some (.dir es) ∧
      path = joinPath (childPath D (lastPart S)) r
  /-- The entries that are taken from the queue, with the directories that they go to. -/
  started : ∀ src dest, .newFileStarted src dest ∈ s.calls ↔
    ∃ S ∈ srcPkg.files, (src = S ∧ dest = D) ∨
      ∃ r n, t.lookup (components S ++ (r ++ [n])) ≠ none ∧
        src = joinPath S (r ++ [n]) ∧ dest = joinPath (childPath D (lastPart S)) r
  /-- A directory is made before its entries are taken. -/
  mkdirFirst : ∀ src dest l₁ l₂, s.calls = l₁ ++ .newFileStarted src dest :: l₂ →
    dest ≠ D → .mkdir dest ∈ l₁
  done : s.doneQueue = (s.calls.filterMap Call.started).map fun p =>
    (srcPkg.setFile p.1, destPkg.setFile p.2)

theorem copy_mem_calls {order : List Item} {src dest : QString} :
    .copy src dest ∈ order.flatMap Item.calls ↔
      ∃ i ∈ order, i.tree = .file ∧ i.src = src ∧ i.target = dest := by
  rw [List.mem_flatMap]
  refine exists_congr fun i => and_congr_right fun _ => ?_
  obtain ⟨isrc, idest, u⟩ := i
  cases u <;> simp [Item.calls, eq_comm]

theorem mkdir_mem_calls {order : List Item} {path : QString} :
    .mkdir path ∈ order.flatMap Item.calls ↔
      ∃ i ∈ order, (∃ es, i.tree = .dir es) ∧ i.target = path := by
  rw [List.mem_flatMap]
  refine exists_congr fun i => and_congr_right fun _ => ?_
  obtain ⟨isrc, idest, u⟩ := i
  cases u <;> simp [Item.calls, eq_comm]

theorem started_mem_calls {order : List Item} {src dest : QString} :
    .newFileStarted src dest ∈ order.flatMap Item.calls ↔
      ∃ i ∈ order, i.src = src ∧ i.dest = dest := by
  rw [List.mem_flatMap]
  refine exists_congr fun i => and_congr_right fun _ => ?_
  obtain ⟨isrc, idest, u⟩ := i
  cases u <;> simp [Item.calls, eq_comm]

section Order

variable {order : List Item} (ht : t.Named) (hsel : ∀ S ∈ sel, t.lookup (components S) ≠ none)
  (hv : Visits Item.next (selected t sel D) order)

include ht hsel hv

theorem mem_order_target (p : Tree → Prop) (src dest : QString) :
    (∃ i ∈ order, p i.tree ∧ i.src = src ∧ i.target = dest) ↔
      ∃ S ∈ sel, ∃ r u, p u ∧ t.lookup (components S ++ r) = some u ∧
        src = joinPath S r ∧ dest = joinPath (childPath D (lastPart S)) r := by
  have hnames : ∀ {S r u}, t.lookup (components S ++ r) = some u → ∀ n ∈ r, IsName n :=
    fun h n hn => ht.isName h n (List.mem_append_right _ hn)
  constructor
  · rintro ⟨i, hi, hp, rfl, rfl⟩
    obtain ⟨S, hS, r, hr, hplace⟩ := (mem_order ht hsel hv i).mp hi
    refine ⟨S, hS, r, i.tree, hp, hr, ?_, ?_⟩
    · rw [← place_src S D, ← hplace]
    · rw [← place_target S D (hnames hr), ← hplace, Item.target]
  · rintro ⟨S, hS, r, u, hp, hr, rfl, rfl⟩
    refine ⟨⟨(place S D r).1, (place S D r).2, u⟩, ?_, hp, place_src S D r, ?_⟩
    · exact (mem_order ht hsel hv _).mpr ⟨S, hS, r, hr, rfl⟩
    · exact place_target S D (hnames hr)

theorem copy_mem_order (src dest : QString) :
    .copy src dest ∈ order.flatMap Item.calls ↔
      ∃ S ∈ sel, ∃ r, t.lookup (components S ++ r) = some .file ∧
        src = joinPath S r ∧ dest = joinPath (childPath D (lastPart S)) r := by
  rw [copy_mem_calls, mem_order_target ht hsel hv (· = .file)]
  simp

theorem mkdir_mem_order (path : QString) :
    .mkdir path ∈ order.flatMap Item.calls ↔
      ∃ S ∈ sel, ∃ r es, t.lookup (components S ++ r) = some (.dir es) ∧
        path = joinPath (childPath D (lastPart S)) r := by
  have hpath := mem_order_target ht hsel hv (fun u => ∃ es, u = .dir es)
  rw [mkdir_mem_calls]
  constructor
  · rintro ⟨i, hi, hes, hi'⟩
    obtain ⟨S, hS, r, u, ⟨es, rfl⟩, hr, -, hp⟩ := (hpath i.src path).mp ⟨i, hi, hes, rfl, hi'⟩
    exact ⟨S, hS, r, es, hr, hp⟩
  · rintro ⟨S, hS, r, es, hr, hp⟩
    obtain ⟨i, hi, hes, -, hi'⟩ := (hpath _ path).mpr ⟨S, hS, r, _, ⟨es, rfl⟩, hr, rfl, hp⟩
    exact ⟨i, hi, hes, hi'⟩

theorem mem_order_started (src dest : QString) :
    (∃ i ∈ order, i.src = src ∧ i.dest = dest) ↔
      ∃ S ∈ sel, (src = S ∧ dest = D) ∨
        ∃ r n, t.lookup (components S ++ (r ++ [n])) ≠ none ∧
          src = joinPath S (r ++ [n]) ∧ dest = joinPath (childPath D (lastPart S)) r := by
  constructor
  · rintro ⟨i, hi, rfl, rfl⟩
    obtain ⟨S, hS, r, hr, hplace⟩ := (mem_order ht hsel hv i).mp hi
    refine ⟨S, hS, ?_⟩
    rcases List.eq_nil_or_concat r with rfl | ⟨r, n, rfl⟩
    · exact .inl (Prod.mk.inj hplace)
    · rw [List.concat_eq_append] at hr hplace
      have hnames : ∀ m ∈ r, IsName m := fun m hm => ht.isName hr m (by simp [hm])
      refine .inr ⟨r, n, by simp [hr], ?_, ?_⟩
      · rw [← place_src S D, ← hplace]
      · rw [← place_dest S D hnames n, ← hplace]
  · rintro ⟨S, hS, ⟨rfl, rfl⟩ | ⟨r, n, hr, rfl, rfl⟩⟩
    · obtain ⟨u, hu⟩ := Option.ne_none_iff_exists'.mp (hsel src hS)
      exact ⟨⟨src, dest, u⟩, (mem_order ht hsel hv _).mpr ⟨src, hS, [], by simpa using hu, rfl⟩,
        rfl, rfl⟩
    · obtain ⟨u, hu⟩ := Option.ne_none_iff_exists'.mp hr
      have hnames : ∀ m ∈ r, IsName m := fun m hm => ht.isName hu m (by simp [hm])
      exact ⟨⟨(place S D (r ++ [n])).1, (place S D (r ++ [n])).2, u⟩,
        (mem_order ht hsel hv _).mpr ⟨S, hS, r ++ [n], hu, rfl⟩,
        place_src S D _, place_dest S D hnames n⟩

end Order

theorem foldl_codeAfter {order : List Item} (h : ∀ i ∈ order, i.tree ≠ .special) (code : Int) :
    order.foldl (fun code i => codeAfter i code) code = code := by
  induction order with
  | nil => rfl
  | cons i order ih =>
    obtain ⟨hi, horder⟩ := List.forall_mem_cons.mp h
    have hcode : codeAfter i code = code := by
      obtain ⟨src, dest, u⟩ := i
      cases u <;> first | rfl | exact absurd rfl hi
    rw [List.foldl_cons, hcode, ih horder]

theorem ready_setTransportInfo (t : Tree) {srcPkg destPkg : TaskPackage}
    (hdest : destPkg.files = [D]) (w : Dirs) :
    (setTransportInfo srcPkg destPkg (State.new w)).readyQueue =
      (selected t srcPkg.files D).map (Item.pair srcPkg destPkg) := by
  simp only [setTransportInfo, State.new, hdest, selected, List.map_map, List.map_cons,
    List.map_nil, List.nil_append]
  exact List.map_eq_flatMap.symm

theorem queued_selected {lp : Loop Dirs} {srcPkg destPkg : TaskPackage} {w : Dirs}
    (hsees : ∀ src u, t.lookup (components src) = some u → Sees lp src u)
    (hsel : ∀ S ∈ srcPkg.files, t.lookup (components S) ≠ none)
    (hdest : destPkg.files = [D]) (hD : components D ∈ w) :
    Queued srcPkg destPkg lp (selected t srcPkg.files D)
      (setTransportInfo srcPkg destPkg (State.new w)) := by
  refine ⟨ready_setTransportInfo t hdest w, List.forall_mem_map.mpr fun S hS => ?_,
    List.forall_mem_map.mpr fun _ _ => hD, rfl⟩
  obtain ⟨u, hu⟩ := Option.ne_none_iff_exists'.mp (hsel S hS)
  rw [hu, Option.getD_some]
  exact hsees S u hu

theorem copies_of_sees {lp : Loop Dirs} {srcPkg destPkg : TaskPackage} {w : Dirs} (ht : t.Named)
    (hspecial : ∀ path, t.lookup path ≠ some .special)
    (hconnect : ∀ w, lp.connect w = (none, w)) (hcopy : CopySucceeds lp.copyFile)
    (hsees : ∀ src u, t.lookup (components src) = some u → Sees lp src u)
    (hne : srcPkg.files ≠ []) (hsel : ∀ S ∈ srcPkg.files, t.lookup (components S) ≠ none)
    (hslash : ∀ S ∈ srcPkg.files, lastPart S ≠ []) (hbase : (srcPkg.files.map lastPart).Nodup)
    (hdest : destPkg.files = [D]) (hD : components D ∈ w) :
    ∃ fuel s, lp.run fuel (setTransportInfo srcPkg destPkg (State.new w)) = some s ∧
      TreeCopied t srcPkg destPkg D s := by
  have hq : selected t srcPkg.files D ≠ [] := by simpa [selected] using hne
  obtain ⟨order, fuel, s, hv, hrun, h⟩ :=
    run_traversed hconnect hcopy hq (queued_selected hsees hsel hdest hD)
  have hcalls : s.calls = order.flatMap Item.calls := h.calls
  refine ⟨fuel, s, hrun, ?_⟩
  constructor
  case ready => exact h.ready
  case errorCode =>
    rw [h.errorCode]
    refine foldl_codeAfter (fun i hi => ?_) 0
    obtain ⟨S, -, r, hr, -⟩ := (mem_order ht hsel hv i).mp hi
    exact fun hi => hspecial _ (hi ▸ hr)
  case once =>
    rw [hcalls]
    exact nodup_calls (nodup_order ht hsel hslash hbase hv)
  case copies =>
    intro src dest
    rw [hcalls, copy_mem_order ht hsel hv]
  case mkdirs =>
    intro path
    rw [hcalls, mkdir_mem_order ht hsel hv]
  case started =>
    intro src dest
    rw [hcalls, started_mem_calls, mem_order_started ht hsel hv]
  case mkdirFirst =>
    intro src dest l₁ l₂ hl hne
    rw [hcalls] at hl
    exact (mkdir_before hv hl).resolve_left hne
  case done =>
    rw [hcalls, filterMap_started, List.map_map]
    exact h.done

/-- **A directory transfer copies the whole tree, each file once.** -/
theorem transfer_copies_tree (t : Tree) (ht : t.Named)
    (hspecial : ∀ path, t.lookup path ≠ some .special) (srcPkg destPkg : TaskPackage)
    (hne : srcPkg.files ≠ []) (hsel : ∀ S ∈ srcPkg.files, t.lookup (components S) ≠ none)
    (hslash : ∀ S ∈ srcPkg.files, lastPart S ≠ []) (hbase : (srcPkg.files.map lastPart).Nodup)
    (D : QString) (hdest : destPkg.files = [D]) (w : Dirs) (hD : components D ∈ w)
    (copy : QString → QString → State Dirs → Option (State Dirs)) (hcopy : CopySucceeds copy) :
    ∀ lp ∈ [runSftpToFile connected copy t.sftpHost Dirs.localDisk,
        runSftpToSftp connected copy t.sftpHost Dirs.sftpHost,
        runFileToSftp connected copy t.localDisk Dirs.sftpHost],
      ∃ fuel s, lp.run fuel (setTransportInfo srcPkg destPkg (State.new w)) = some s ∧
        TreeCopied t srcPkg destPkg D s := by
  have hall : ∀ lp : Loop Dirs, (∀ w, lp.connect w = (none, w)) → CopySucceeds lp.copyFile →
      (∀ src u, t.lookup (components src) = some u → Acts lp src u) →
      ∃ fuel s, lp.run fuel (setTransportInfo srcPkg destPkg (State.new w)) = some s ∧
        TreeCopied t srcPkg destPkg D s :=
    fun lp hconnect hcopy hacts => copies_of_sees ht hspecial hconnect hcopy
      (fun src u hu => sees_of_acts ht hacts hu) hne hsel hslash hbase hdest hD
  intro lp hlp
  simp only [List.mem_cons, List.not_mem_nil, or_false] at hlp
  rcases hlp with rfl | rfl | rfl
  · exact hall _ (fun _ => rfl) hcopy fun src u hu => acts_sftpToFile copy ht hu
  · exact hall _ (fun _ => rfl) hcopy fun src u hu => acts_sftpToSftp copy ht hu
  · exact hall _ (fun _ => rfl) hcopy fun src u hu => acts_fileToSftp copy ht hu

def exampleTree : Tree :=
  .dir [("a".toList, .dir [("f".toList, .file), ("b".toList, .dir [])])]

theorem exampleTree_named : exampleTree.Named := by
  have hempty : Tree.Named (.dir []) := Tree.named_of_entries (by decide) (by simp) (by simp)
  have ha : Tree.Named (.dir [("f".toList, .file), ("b".toList, .dir [])]) :=
    Tree.named_of_entries (by decide) (by decide) (by simp [Tree.named_file, hempty])
  exact Tree.named_of_entries (by decide) (by decide) (by simpa using ha)

theorem exampleTree_noSpecial (path : List QString) : exampleTree.lookup path ≠ some .special := by
  have hdir (es : List (QString × Tree)) (h : ∀ e ∈ es, ∀ p, e.2.lookup p ≠ some .special)
      (p : List QString) : (Tree.dir es).lookup p ≠ some .special := by
    cases p with
    | nil => simp [Tree.lookup]
    | cons n p =>
      intro hp
      obtain ⟨e, hfind, he⟩ := Option.bind_eq_some_iff.mp hp
      exact h e (List.mem_of_find?_eq_some hfind) p he
  have hfile (p : List QString) : Tree.file.lookup p ≠ some .special := by
    cases p <;> simp [Tree.lookup]
  have hempty := hdir [] (by simp)
  have ha := hdir [("f".toList, .file), ("b".toList, .dir [])] (by
    rintro e he
    simp only [List.mem_cons, List.not_mem_nil, or_false] at he
    rcases he with rfl | rfl
    · exact hfile
    · exact hempty)
  exact hdir _ (by simpa using ha) path

def localPkg (files : List QString) : TaskPackage := ⟨1, files, [], [], [], [], []⟩

def remotePkg (files : List QString) : TaskPackage :=
  ⟨2, files, "host".toList, "22".toList, "user".toList, "password".toList, []⟩

theorem transfer_copies_tree_example :
    ∃ fuel s, (runSftpToFile connected (fun _ _ s => some s) exampleTree.sftpHost
        Dirs.localDisk).run fuel
        (setTransportInfo (remotePkg ["/a".toList]) (localPkg ["/d".toList])
          (State.new [["d".toList]])) = some s ∧
      TreeCopied exampleTree (remotePkg ["/a".toList]) (localPkg ["/d".toList]) "/d".toList s :=
  transfer_copies_tree exampleTree exampleTree_named exampleTree_noSpecial
    (remotePkg ["/a".toList]) (localPkg ["/d".toList]) (by decide)
    (by simp [remotePkg]; decide) (by decide) (by decide) "/d".toList rfl [["d".toList]] (by decide)
    (fun _ _ s => some s) (fun _ _ s => ⟨s.errorString, s.fileConflictResolveMethod, rfl⟩) _
    List.mem_cons_self

end NullFxp.Transportor
