import Mathlib.Data.List.Induction
import NullFxp.Retriver.Names

/-!
# What a recursive delete clears

The walk removes the entries of a directory and then the directory, when the names that it has for
them are the names that the server knows.
-/

namespace NullFxp.Retriver

/-! ## Parts of a tree -/

namespace Server

/-- The server without the entries at the given locations. -/
def prune (srv : Server) (gone : Loc → Bool) : Server where
  entries := srv.entries.filter fun e => !gone (e.1 ++ [e.2.1])
  maxLinks := srv.maxLinks
  nodup := srv.nodup.sublist (List.filter_sublist.map _)
  named e he := srv.named e (List.mem_of_mem_filter he)

variable {srv : Server} {dir : Loc} {name : QString} {e : Entry} {gone gone' : Loc → Bool}

theorem find_prune : (srv.prune gone).find dir name = some e ↔
    srv.find dir name = some e ∧ gone (dir ++ [name]) = false := by
  rw [find_eq_some, find_eq_some, prune, List.mem_filter]
  simp

theorem ext_entries {srv srv' : Server} (h : srv.entries = srv'.entries)
    (hlinks : srv.maxLinks = srv'.maxLinks) : srv = srv' := by
  cases srv
  cases srv'
  simp only at h hlinks
  subst h hlinks
  rfl

theorem prune_congr (h : ∀ dir name e, srv.find dir name = some e →
    gone (dir ++ [name]) = gone' (dir ++ [name])) : srv.prune gone = srv.prune gone' := by
  refine ext_entries ?_ rfl
  apply List.filter_congr
  rintro ⟨dir, name, e⟩ he
  simp only
  rw [h dir name e (find_eq_some.mpr he)]

theorem prune_prune : (srv.prune gone).prune gone' = srv.prune fun l => gone l || gone' l := by
  refine ext_entries ?_ rfl
  show (srv.entries.filter _).filter _ = srv.entries.filter _
  rw [List.filter_filter]
  apply List.filter_congr
  intro e _
  simp [Bool.and_comm]

theorem prune_none (srv : Server) : (srv.prune fun _ => false) = srv := by
  refine ext_entries ?_ rfl
  simp [prune]

theorem remove_eq_prune (srv : Server) (dir : Loc) (name : QString) :
    srv.remove dir name = srv.prune fun l => l = dir ++ [name] := by
  refine ext_entries ?_ rfl
  apply List.filter_congr
  rintro ⟨d, n, e⟩ _
  simp

theorem prune_sub (srv : Server) (gone : Loc → Bool) : (srv.prune gone).Sub srv :=
  ⟨fun h => (find_prune.mp h).1, rfl⟩

theorem prune_sub_prune (h : ∀ l, gone' l = true → gone l = true) :
    (srv.prune gone).Sub (srv.prune gone') := by
  refine ⟨fun {d n e} hf => ?_, rfl⟩
  obtain ⟨hf, hgone⟩ := find_prune.mp hf
  refine find_prune.mpr ⟨hf, ?_⟩
  by_contra hne
  rw [h _ (by simpa using hne)] at hgone
  cases hgone

/-- Every entry is in a directory. -/
def IsTree (srv : Server) : Prop :=
  ∀ dir name e, srv.find dir name = some e → srv.isDir dir = true

theorem IsTree.realDir (h : srv.IsTree) (hdir : srv.isDir dir = true) : srv.RealDir dir := by
  induction dir using List.reverseRecOn with
  | nil => exact realDir_nil srv
  | append_singleton dir name ih =>
    have hfind := (isDir_concat srv dir name).mp hdir
    exact (ih (h dir name .dir hfind)).concat hfind

/-- What is gone is gone with everything below. -/
def Closed (gone : Loc → Bool) : Prop := ∀ l l', l <+: l' → gone l = true → gone l' = true

theorem IsTree.prune (h : srv.IsTree) (hclosed : Closed gone) : (srv.prune gone).IsTree := by
  intro dir name e he
  obtain ⟨he, hgone⟩ := find_prune.mp he
  have hdir := h dir name e he
  rcases List.eq_nil_or_concat dir with rfl | ⟨d, n, rfl⟩
  · rfl
  · rw [List.concat_eq_append, isDir_concat] at hdir ⊢
    rw [List.concat_eq_append] at hgone
    refine find_prune.mpr ⟨hdir, ?_⟩
    by_contra hne
    rw [hclosed _ _ (List.prefix_append (d ++ [n]) [name]) (by simpa using hne)] at hgone
    cases hgone

end Server

/-- At or below `root`. -/
def under (root : Loc) (l : Loc) : Bool := root <+: l

/-- Below `root`, and not `root` itself. -/
def below (root : Loc) (l : Loc) : Bool := root <+: l ∧ l ≠ root

theorem under_iff {root l : Loc} : under root l = true ↔ root <+: l := by simp [under]

theorem below_iff {root l : Loc} : below root l = true ↔ root <+: l ∧ l ≠ root := by simp [below]

theorem below_concat_iff {root dir : Loc} {name : QString} :
    below root (dir ++ [name]) = true ↔ root <+: dir := by
  rw [below_iff, List.prefix_concat_iff]
  constructor
  · rintro ⟨h | h, hne⟩
    · exact absurd h.symm hne
    · exact h
  · intro h
    refine ⟨.inr h, fun he => ?_⟩
    have := h.length_le
    rw [← he, List.length_append, List.length_singleton] at this
    omega

/-! ## The directory and its entries -/

theorem resolve_child_entry {srv : Server} {path name : QString} {dir : Loc} {e : Entry}
    (hopen : openDir srv path = some dir) (he : srv.find dir name = some e) :
    srv.resolve false (childPath path name) = some (dir ++ [name]) := by
  obtain ⟨hr, hd⟩ := openDir_eq_some.mp hopen
  exact Server.resolve_entry hr hd he fun h => by simp at h

/-- The subtree at `dir` is gone, and nothing else. -/
structure Clears (dir : Loc) (st st' : Deleting) : Prop where
  srv : st'.srv = st.srv.prune (under dir)
  aborted : st'.aborted = st.aborted

/-- The entries at and below these children of `dir`. -/
def ofChildren (dir : Loc) (names : List QString) (l : Loc) : Bool :=
  names.any fun name => under (dir ++ [name]) l

theorem ofChildren_iff {dir l : Loc} {names : List QString} :
    ofChildren dir names l = true ↔ ∃ name ∈ names, dir ++ [name] <+: l := by
  simp [ofChildren, under_iff]

theorem closed_ofChildren (dir : Loc) (names : List QString) :
    Server.Closed (ofChildren dir names) := by
  intro l l' hl h
  rw [ofChildren_iff] at h ⊢
  obtain ⟨name, hname, hpre⟩ := h
  exact ⟨name, hname, hpre.trans hl⟩

theorem below_of_ofChildren {dir l : Loc} {names : List QString}
    (h : ofChildren dir names l = true) : below dir l = true := by
  obtain ⟨name, -, hpre⟩ := ofChildren_iff.mp h
  rw [below_iff]
  refine ⟨(List.prefix_append dir [name]).trans hpre, fun he => ?_⟩
  have := hpre.length_le
  rw [he, List.length_append, List.length_singleton] at this
  omega

section Tree

variable {srv : Server} {dir : Loc}

theorem ofChildren_eq_below (htree : srv.IsTree) {d : Loc} {n : QString} {e : Entry}
    (he : srv.find d n = some e) :
    ofChildren dir ((srv.children dir).map Prod.fst) (d ++ [n]) = below dir (d ++ [n]) := by
  rw [Bool.eq_iff_iff]
  refine ⟨below_of_ofChildren, fun h => ?_⟩
  rw [below_concat_iff] at h
  rw [ofChildren_iff]
  obtain ⟨rest, rfl⟩ := h
  cases rest with
  | nil =>
    rw [List.append_nil] at he ⊢
    exact ⟨n, List.mem_map.mpr ⟨(n, e), Server.mem_children.mpr he, rfl⟩, List.prefix_rfl⟩
  | cons c rest =>
    have hpre : dir ++ [c] <+: dir ++ c :: rest := ⟨rest, by simp⟩
    have hc := htree.realDir (htree _ _ _ he) _ hpre
    rw [Server.isDir_concat] at hc
    exact ⟨c, List.mem_map.mpr ⟨(c, .dir), Server.mem_children.mpr hc, rfl⟩,
      hpre.trans (List.prefix_append _ _)⟩

theorem prune_ofChildren (htree : srv.IsTree) :
    srv.prune (ofChildren dir ((srv.children dir).map Prod.fst)) = srv.prune (below dir) :=
  Server.prune_congr fun _ _ _ he => ofChildren_eq_below htree he

/-- No directory this deep, or deeper, has entries. -/
def Shallow (srv : Server) (depth : Nat) : Prop :=
  ∀ dir name e, srv.find dir name = some e → dir.length < depth

theorem shallow_height (srv : Server) : Shallow srv srv.height :=
  fun _ _ _ he => Server.length_lt_height (List.ne_nil_of_mem (Server.mem_children.mpr he))

theorem Shallow.prune_below (h : Shallow srv dir.length) : srv.prune (below dir) = srv := by
  rw [← Server.prune_none srv, Server.prune_prune]
  refine Server.prune_congr fun d n e he => ?_
  have hlt := h d n e he
  rw [Bool.false_or, ← Bool.not_eq_true, below_concat_iff]
  intro hpre
  have := hpre.length_le
  omega

theorem Shallow.child {srv' : Server} {depth : Nat} (h : Shallow srv (dir.length + (depth + 1)))
    (hsub : srv'.Sub srv) {name : QString} : Shallow srv' ((dir ++ [name]).length + depth) := by
  intro d n e he
  have := h d n e (hsub.find he)
  rw [List.length_append, List.length_singleton]
  omega

theorem prune_below_remove {pl : Loc} {name : QString} :
    (srv.prune (below (pl ++ [name]))).remove pl name = srv.prune (under (pl ++ [name])) := by
  rw [Server.remove_eq_prune, Server.prune_prune]
  refine congrArg srv.prune (funext fun l => ?_)
  rw [Bool.eq_iff_iff, Bool.or_eq_true, below_iff, under_iff, decide_eq_true_eq]
  constructor
  · rintro (⟨hpre, -⟩ | rfl)
    · exact hpre
    · exact List.prefix_rfl
  · intro hpre
    by_cases heq : l = pl ++ [name]
    · exact .inr heq
    · exact .inl ⟨hpre, heq⟩

theorem prune_under_leaf (htree : srv.IsTree) {n : QString} {e : Entry}
    (he : srv.find dir n = some e) (hne : e ≠ .dir) :
    srv.remove dir n = srv.prune (under (dir ++ [n])) := by
  rw [Server.remove_eq_prune]
  refine Server.prune_congr fun d m e' he' => ?_
  rw [Bool.eq_iff_iff, decide_eq_true_eq, under_iff]
  constructor
  · intro heq
    exact heq ▸ List.prefix_rfl
  · intro hpre
    rcases List.prefix_concat_iff.mp hpre with heq | hpre
    · exact heq.symm
    · have hdir := htree.realDir (htree _ _ _ he') _ hpre
      rw [Server.isDir_concat, he] at hdir
      exact absurd (Option.some.inj hdir) hne

theorem nodup_names_children : ((srv.children dir).map Prod.fst).Nodup := by
  have hnames : (srv.children dir).map Prod.fst = (srv.entries.map fun e => (e.1, e.2.1)).filterMap
      fun k => if k.1 = dir then some k.2 else none := by
    rw [Server.children, List.map_filterMap, List.filterMap_map]
    apply List.filterMap_congr
    intro e _
    simp only [Function.comp_apply]
    split <;> rfl
  rw [hnames]
  refine srv.nodup.filterMap ?_
  rintro ⟨d, n⟩ ⟨d', n'⟩ m hm hm'
  simp only [Option.mem_def, Option.ite_none_right_eq_some, Option.some.injEq] at hm hm'
  rw [hm.1, hm.2, hm'.1, hm'.2]

/-- **The loop over a listing.** `f` clears the entry that it is given, when the entries before it
are gone and nothing else is. -/
theorem foldl_clears {f : Deleting → QString × Entry → Deleting} {st : Deleting}
    (hstep : ∀ done e st', e ∈ st.srv.children dir → e.1 ∉ done →
      st'.srv = st.srv.prune (ofChildren dir done) → st'.aborted = st.aborted →
      Clears (dir ++ [e.1]) st' (f st' e))
    (es : List (QString × Entry)) (hes : ∀ e ∈ es, e ∈ st.srv.children dir) (done : List QString)
    (hnodup : (done ++ es.map Prod.fst).Nodup) (st' : Deleting)
    (hst' : st'.srv = st.srv.prune (ofChildren dir done)) (habort : st'.aborted = st.aborted) :
    (es.foldl f st').srv = st.srv.prune (ofChildren dir (done ++ es.map Prod.fst)) ∧
      (es.foldl f st').aborted = st.aborted := by
  induction es generalizing done st' with
  | nil => simpa using ⟨hst', habort⟩
  | cons e es ih =>
    have hnew : e.1 ∉ done := by
      intro hmem
      exact List.disjoint_of_nodup_append hnodup hmem (by simp)
    have hclears := hstep done e st' (hes e (by simp)) hnew hst' habort
    have hdone : done ++ (e :: es).map Prod.fst = (done ++ [e.1]) ++ es.map Prod.fst := by simp
    rw [hdone] at hnodup ⊢
    rw [List.foldl_cons]
    refine ih (fun e' he' => hes e' (List.mem_cons_of_mem _ he')) _ hnodup _ ?_
      (hclears.aborted.trans habort)
    rw [hclears.srv, hst', Server.prune_prune]
    congr 1
    funext l
    simp [ofChildren]

end Tree

theorem listing_clears {srv : Server} {dir : Loc} {f : Deleting → QString × Entry → Deleting}
    {st : Deleting} (hst : st.srv = srv) (htree : srv.IsTree)
    (hstep : ∀ done e st', e ∈ srv.children dir → e.1 ∉ done →
      st'.srv = srv.prune (ofChildren dir done) → st'.aborted = st.aborted →
      Clears (dir ++ [e.1]) st' (f st' e)) :
    ((srv.children dir).reverse.foldl f st).srv = srv.prune (below dir) ∧
      ((srv.children dir).reverse.foldl f st).aborted = st.aborted := by
  subst hst
  rw [← prune_ofChildren htree]
  have hnodup : ([] ++ (st.srv.children dir).reverse.map Prod.fst).Nodup := by
    rw [List.nil_append, List.map_reverse, List.nodup_reverse]
    exact nodup_names_children
  have hstart : st.srv = st.srv.prune (ofChildren dir []) := by
    nth_rewrite 1 [← Server.prune_none st.srv]
    rfl
  obtain ⟨hsrv, habort⟩ := foldl_clears hstep (st.srv.children dir).reverse
    (fun e he => List.mem_reverse.mp he) [] hnodup st hstart rfl
  refine ⟨hsrv.trans (congrArg st.srv.prune (funext fun l => ?_)), habort⟩
  simp [ofChildren]

/-- The directory `name` in `pl`, with a path on the server that does not lead through what is below
it. -/
structure Selected (srv : Server) (parentPath name : QString) (pl : Loc) : Prop where
  tree : srv.IsTree
  entry : srv.find pl name = some .dir
  opens : openDir (srv.prune (below (pl ++ [name]))) parentPath = some pl

section Selected

variable {srv : Server} {parentPath name c : QString} {pl : Loc} {done : List QString}

theorem below_self (l : Loc) : below l l = false := by simp [below]

theorem not_ofChildren_concat {dir : Loc} (h : c ∉ done) : ofChildren dir done (dir ++ [c]) = false := by
  rw [← Bool.not_eq_true, ofChildren_iff]
  rintro ⟨n, hn, hpre⟩
  have heq := hpre.eq_of_length (by simp)
  rw [List.append_cancel_left_eq, List.singleton_inj] at heq
  exact h (heq ▸ hn)

theorem Selected.openDir_below (h : Selected srv parentPath name pl) :
    openDir (srv.prune (below (pl ++ [name]))) (childPath parentPath name) = some (pl ++ [name]) :=
  openDir_child h.opens (Server.find_prune.mpr ⟨h.entry, below_self _⟩)

theorem Selected.openDir_prune (h : Selected srv parentPath name pl) {gone : Loc → Bool}
    (hgone : ∀ l, gone l = true → below (pl ++ [name]) l = true) :
    openDir (srv.prune gone) (childPath parentPath name) = some (pl ++ [name]) :=
  openDir_sub (Server.prune_sub_prune hgone) h.openDir_below

theorem Selected.openDir_self (h : Selected srv parentPath name pl) :
    openDir srv (childPath parentPath name) = some (pl ++ [name]) :=
  openDir_sub (Server.prune_sub _ _) h.openDir_below

theorem Selected.child (h : Selected srv parentPath name pl) (hc : c ∉ done)
    (he : srv.find (pl ++ [name]) c = some .dir) :
    Selected (srv.prune (ofChildren (pl ++ [name]) done)) (childPath parentPath name) c
      (pl ++ [name]) := by
  refine ⟨h.tree.prune (closed_ofChildren _ _),
    Server.find_prune.mpr ⟨he, not_ofChildren_concat hc⟩, ?_⟩
  rw [Server.prune_prune]
  refine h.openDir_prune fun l hl => ?_
  rw [Bool.or_eq_true] at hl
  rcases hl with hl | hl
  · exact below_of_ofChildren hl
  · rw [below_iff] at hl
    have hc : ofChildren (pl ++ [name]) [c] l = true := ofChildren_iff.mpr ⟨c, by simp, hl.1⟩
    exact below_of_ofChildren hc

theorem Selected.unlink_clears (h : Selected srv parentPath name pl) (hc : c ∉ done) {e : Entry}
    (he : srv.find (pl ++ [name]) c = some e) (hne : e ≠ .dir) {st : Deleting}
    (hst : st.srv = srv.prune (ofChildren (pl ++ [name]) done)) :
    Clears (pl ++ [name] ++ [c]) st (unlink (childPath (childPath parentPath name) c) st).2 := by
  have hopen : openDir st.srv (childPath parentPath name) = some (pl ++ [name]) := by
    rw [hst]
    exact h.openDir_prune fun l => below_of_ofChildren
  have hentry : st.srv.find (pl ++ [name]) c = some e := by
    rw [hst]
    exact Server.find_prune.mpr ⟨he, not_ofChildren_concat hc⟩
  have htree : st.srv.IsTree := by
    rw [hst]
    exact h.tree.prune (closed_ofChildren _ _)
  rw [unlink_child hopen hentry hne]
  exact ⟨prune_under_leaf htree hentry hne, rfl⟩

theorem Selected.rmdir_clears (h : Selected srv parentPath name pl) {st₀ st : Deleting}
    (hst₀ : st₀.srv = srv) (hst : st.srv = srv.prune (below (pl ++ [name])))
    (habort : st.aborted = st₀.aborted) :
    ∃ st', rmdir (childPath parentPath name) st = (true, st') ∧ Clears (pl ++ [name]) st₀ st' := by
  have hentry : st.srv.find pl name = some .dir := by
    rw [hst]
    exact Server.find_prune.mpr ⟨h.entry, below_self _⟩
  have hempty : st.srv.children (pl ++ [name]) = [] := by
    rw [List.eq_nil_iff_forall_not_mem]
    rintro ⟨n, e⟩ he
    rw [Server.mem_children, hst, Server.find_prune] at he
    rw [below_concat_iff.mpr List.prefix_rfl] at he
    cases he.2
  refine ⟨_, rmdir_child (hst ▸ h.opens) hentry hempty, ?_, habort⟩
  show st.srv.remove pl name = _
  rw [hst₀, hst, prune_below_remove]

end Selected

/-! ## The walks -/

/-- There is no entry of such a kind below the directory. -/
def NoneBelow (srv : Server) (root : Loc) (kind : Entry → Prop) : Prop :=
  ∀ dir name e, root <+: dir → srv.find dir name = some e → ¬ kind e

def IsSpecial (e : Entry) : Prop := e = .special

/-- What the FTP walk does not list, or does not remove. -/
def IsSpecialOrLink (e : Entry) : Prop := e = .special ∨ ∃ absolute target, e = .link absolute target

theorem NoneBelow.sub {srv srv' : Server} {root root' : Loc} {kind : Entry → Prop}
    (h : NoneBelow srv root kind) (hsub : srv'.Sub srv) (hroot : root <+: root') :
    NoneBelow srv' root' kind :=
  fun dir name e hdir he => h dir name e (hroot.trans hdir) (hsub.find he)

/-- The name that an entry is shown with goes back to the server as the entry's own. -/
def Names.SentBack (names : Names) (dir : Loc) (name : QString) (e : Entry) : Prop :=
  ∃ text, names.shown dir (name, e) = some text ∧ isDots text = false ∧
    names.file text = name ∧ (e = .dir → names.dir text = name)

/-- What a recursive delete needs of the directory `name` in `pl`: there is nothing below it that
the walk does not remove, all names come back, and the paths do not lead through what is removed. -/
structure Clearable (names : Names) (kind : Entry → Prop) (srv : Server) (parentPath name : QString)
    (pl : Loc) : Prop where
  none : NoneBelow srv (pl ++ [name]) kind
  sent : ∀ dir n e, srv.find dir n = some e → pl ++ [name] <+: dir ++ [n] → names.SentBack dir n e
  dir : openDir (srv.prune (below (pl ++ [name]))) (names.dir parentPath) = some pl
  file : openDir (srv.prune (below (pl ++ [name]))) (names.file parentPath) = some pl

section Walks

variable {names : Names} {kind : Entry → Prop} {srv : Server} {parentPath name text c : QString}
  {pl : Loc} {st : Deleting} {depth : Nat} {done : List QString}

theorem Clearable.sent_path (h : Clearable names kind srv parentPath name pl)
    (hlaw : names.Lawful) (he : srv.find pl name = some .dir)
    (htext : names.shown pl (name, .dir) = some text) :
    names.dir (childPath parentPath text) = childPath (names.dir parentPath) name ∧
      names.file (childPath parentPath text) = childPath (names.file parentPath) name := by
  obtain ⟨text', hshown, -, hfile, hdir⟩ := h.sent pl name .dir he List.prefix_rfl
  obtain rfl := Option.some.inj (htext.symm.trans hshown)
  exact ⟨by rw [hlaw.dir, hdir rfl], by rw [hlaw.file, hfile]⟩

theorem Clearable.child (h : Clearable names kind srv parentPath name pl) (hlaw : names.Lawful)
    (htree : srv.IsTree) (he : srv.find pl name = some .dir)
    (htext : names.shown pl (name, .dir) = some text) (hc : c ∉ done)
    (hfind : srv.find (pl ++ [name]) c = some .dir) :
    Clearable names kind (srv.prune (ofChildren (pl ++ [name]) done)) (childPath parentPath text) c
      (pl ++ [name]) := by
  have hsub := Server.prune_sub srv (ofChildren (pl ++ [name]) done)
  obtain ⟨hdir, hfile⟩ := h.sent_path hlaw he htext
  have hselected : ∀ {path}, openDir (srv.prune (below (pl ++ [name]))) path = some pl →
      Selected (srv.prune (ofChildren (pl ++ [name]) done)) (childPath path name) c (pl ++ [name]) :=
    fun hopen => Selected.child ⟨htree, he, hopen⟩ hc hfind
  refine ⟨h.none.sub hsub (List.prefix_append _ _), fun d n e hn hpre => ?_, ?_, ?_⟩
  · exact h.sent d n e (hsub.find hn) ((List.prefix_append _ _).trans hpre)
  · rw [hdir]
    exact (hselected h.dir).opens
  · rw [hfile]
    exact (hselected h.file).opens

theorem Clearable.unlink_clears (h : Clearable names kind srv parentPath name pl)
    (hlaw : names.Lawful) (htree : srv.IsTree) (he : srv.find pl name = some .dir)
    (htext : names.shown pl (name, .dir) = some text) (hc : c ∉ done) {e : Entry}
    (hfind : srv.find (pl ++ [name]) c = some e) (hne : e ≠ .dir) {shown : QString}
    (hshown : names.file shown = c) (hst : st.srv = srv.prune (ofChildren (pl ++ [name]) done)) :
    Clears (pl ++ [name] ++ [c]) st
      (unlink (names.file (childPath (childPath parentPath text) shown)) st).2 := by
  have hselected : Selected srv (names.file parentPath) name pl := ⟨htree, he, h.file⟩
  rw [hlaw.file, (h.sent_path hlaw he htext).2, hshown]
  exact hselected.unlink_clears hc hfind hne hst

/-- **The SSH walk clears a directory** with nothing but files, directories and links below it. By
induction on the depth; an entry of the listing is a smaller directory with a path of its own. -/
theorem Names.sshRmEx_clears (hlaw : names.Lawful) (htree : st.srv.IsTree)
    (he : st.srv.find pl name = some .dir) (htext : names.shown pl (name, .dir) = some text)
    (h : Clearable names IsSpecial st.srv parentPath name pl)
    (hdepth : Shallow st.srv ((pl ++ [name]).length + depth)) :
    Clears (pl ++ [name]) st (names.sshRmEx depth (childPath parentPath text) st) := by
  induction depth generalizing parentPath name text pl st with
  | zero =>
    have hselected : Selected st.srv (names.dir parentPath) name pl := ⟨htree, he, h.dir⟩
    obtain ⟨st', hrmdir, hclears⟩ := hselected.rmdir_clears rfl hdepth.prune_below.symm rfl
    rw [sshRmEx, (h.sent_path hlaw he htext).1, sshLast, hrmdir]
    exact hclears
  | succ depth ih =>
    have hselected : Selected st.srv (names.dir parentPath) name pl := ⟨htree, he, h.dir⟩
    have hdir := (h.sent_path hlaw he htext).1
    have hlist : (names.sshList (depth + 1) (childPath parentPath text) st).srv =
          st.srv.prune (below (pl ++ [name])) ∧
        (names.sshList (depth + 1) (childPath parentPath text) st).aborted = st.aborted := by
      rw [sshList, hdir, fxpDoLsDir_eq hselected.openDir_self, foldl_listing hselected.openDir_self]
      apply listing_clears rfl htree
      rintro done ⟨c, e⟩ st' hmem hc hst' -
      have hfind := Server.mem_children.mp hmem
      obtain ⟨shown, hshown, hdots, hfile, -⟩ := h.sent _ c e hfind (List.prefix_append _ _)
      have hunlink : e ≠ .dir → Clears (pl ++ [name] ++ [c]) st'
          (unlink (names.file (childPath (childPath parentPath text) shown)) st').2 :=
        fun hne => h.unlink_clears hlaw htree he htext hc hfind hne hfile hst'
      simp only [hshown, sshEntry]
      cases e with
      | dir =>
        have hsub := Server.prune_sub st.srv (ofChildren (pl ++ [name]) done)
        have hchild := h.child hlaw htree he htext hc hfind
        rw [hdots, if_neg Bool.false_ne_true]
        rw [← hst'] at hsub hchild
        refine ih ?_ ?_ hshown hchild (hdepth.child hsub)
        · rw [hst']
          exact htree.prune (closed_ofChildren _ _)
        · rw [hst']
          exact Server.find_prune.mpr ⟨hfind, not_ofChildren_concat hc⟩
      | reg => exact hunlink (by simp)
      | link absolute target => exact hunlink (by simp)
      | special => exact absurd rfl (h.none _ _ _ List.prefix_rfl hfind)
    obtain ⟨st', hrmdir, hclears⟩ := hselected.rmdir_clears rfl hlist.1 hlist.2
    rw [sshRmEx_eq, hdir, sshLast, hrmdir]
    exact hclears

/-- **The FTP walk clears a directory** with nothing but files and directories below it, and the
assertions hold. -/
theorem Names.ftpRmEx_clears (listFollows : Bool) (hlaw : names.Lawful)
    (habort : st.aborted = false) (htree : st.srv.IsTree) (he : st.srv.find pl name = some .dir)
    (htext : names.shown pl (name, .dir) = some text)
    (h : Clearable names IsSpecialOrLink st.srv parentPath name pl)
    (hdepth : Shallow st.srv ((pl ++ [name]).length + depth)) :
    ∃ st', names.ftpRmEx listFollows depth (childPath parentPath text) st = (true, st') ∧
      Clears (pl ++ [name]) st st' := by
  induction depth generalizing parentPath name text pl st with
  | zero =>
    have hselected : Selected st.srv (names.dir parentPath) name pl := ⟨htree, he, h.dir⟩
    have hdir := (h.sent_path hlaw he htext).1
    obtain ⟨st', hrmdir, hclears⟩ := hselected.rmdir_clears rfl hdepth.prune_below.symm rfl
    refine ⟨st', ?_, hclears⟩
    rw [ftpRmEx_of_some (hdir ▸ hselected.openDir_self), hdir, ftpList, ftpLast_rmdir habort hrmdir,
      if_pos rfl]
  | succ depth ih =>
    have hselected : Selected st.srv (names.dir parentPath) name pl := ⟨htree, he, h.dir⟩
    have hdir := (h.sent_path hlaw he htext).1
    have hlist : (names.ftpList listFollows (depth + 1) (childPath parentPath text) st).srv =
          st.srv.prune (below (pl ++ [name])) ∧
        (names.ftpList listFollows (depth + 1) (childPath parentPath text) st).aborted =
          st.aborted := by
      have hresolve : st.srv.resolve false (childPath (names.dir parentPath) name) =
          some (pl ++ [name]) :=
        resolve_child_entry (openDir_sub (Server.prune_sub _ _) h.dir) he
      have hall : (st.srv.children (pl ++ [name])).filter (fun e => e.2 ≠ .special) =
          st.srv.children (pl ++ [name]) := by
        rw [List.filter_eq_self]
        rintro ⟨c, e⟩ hmem
        have hne : e ≠ .special := fun hs =>
          h.none _ _ _ List.prefix_rfl (Server.mem_children.mp hmem) (.inl hs)
        simpa using hne
      rw [ftpList, hdir, lista_eq hselected.openDir_self (.inr hresolve), hall,
        foldl_listing hselected.openDir_self]
      apply listing_clears rfl htree
      rintro done ⟨c, e⟩ st' hmem hc hst' habort'
      have hfind := Server.mem_children.mp hmem
      obtain ⟨shown, hshown, hdots, hfile, -⟩ := h.sent _ c e hfind (List.prefix_append _ _)
      rw [habort] at habort'
      simp only [hshown, ftpEntry, habort', hdots, Bool.or_self, Bool.false_eq_true, if_false]
      cases e with
      | dir =>
        have hsub := Server.prune_sub st.srv (ofChildren (pl ++ [name]) done)
        have hchild := h.child hlaw htree he htext hc hfind
        have hentry : st'.srv.find (pl ++ [name]) c = some .dir := by
          rw [hst']
          exact Server.find_prune.mpr ⟨hfind, not_ofChildren_concat hc⟩
        have htree' : st'.srv.IsTree := by
          rw [hst']
          exact htree.prune (closed_ofChildren _ _)
        rw [← hst'] at hsub hchild
        obtain ⟨st'', hrm, hclears⟩ := ih habort' htree' hentry hshown hchild (hdepth.child hsub)
        simp only [hrm, if_true]
        exact hclears
      | reg => exact h.unlink_clears hlaw htree he htext hc hfind (by simp) hfile hst'
      | link absolute target =>
        exact absurd (.inr ⟨absolute, target, rfl⟩) (h.none _ _ _ List.prefix_rfl hfind)
      | special => exact absurd (.inl rfl) (h.none _ _ _ List.prefix_rfl hfind)
    obtain ⟨st', hrmdir, hclears⟩ := hselected.rmdir_clears rfl hlist.1 hlist.2
    refine ⟨st', ?_, hclears⟩
    rw [ftpRmEx_of_some (hdir ▸ hselected.openDir_self), hdir,
      ftpLast_rmdir (hlist.2.trans habort) hrmdir, if_pos rfl]

end Walks

end NullFxp.Retriver
