import NullFxp.Retriver.Remove

/-!
# Links to directories

A selected link that opens as a directory takes the walk out of the selected entry. What happens
there is decided by the first event: the first entry that is removed, or the failed assertion.
-/

namespace NullFxp.Retriver

/-! ## Events -/

inductive Event where
  | removes (l : Loc)
  /-- a directory is not removed, and the assertion fails -/
  | stuck
  deriving DecidableEq

/-- What one entry of a listing gives the SSH walk, as long as nothing is removed. -/
def sshEntryEvents (srv : Server) (below : Loc → List Event) (dir : Loc) (e : QString × Entry) :
    List Event :=
  match e.2 with
  | .dir =>
    if srv.children (dir ++ [e.1]) = [] then [.removes (dir ++ [e.1])] else below (dir ++ [e.1])
  | .reg | .link _ _ => [.removes (dir ++ [e.1])]
  | .special => []

/-- The entries below a directory that can be removed, in the order of the SSH walk: files, links
and empty directories. -/
def sshEvents (srv : Server) : Nat → Loc → List Event
  | 0, _ => []
  | depth + 1, dir =>
    (srv.children dir).reverse.flatMap (sshEntryEvents srv (sshEvents srv depth) dir)

def ftpEntryEvents (srv : Server) (below : Loc → List Event) (dir : Loc) (e : QString × Entry) :
    List Event :=
  match e.2 with
  | .dir =>
    if srv.children (dir ++ [e.1]) = [] then [.removes (dir ++ [e.1])]
    else below (dir ++ [e.1]) ++ [.stuck]
  | .link _ _ => []
  | _ => [.removes (dir ++ [e.1])]

/-- And in the order of the FTP walk: files and empty directories. It does not get past a
directory in which there is nothing to remove. -/
def ftpEvents (srv : Server) : Nat → Loc → List Event
  | 0, _ => []
  | depth + 1, dir =>
    ((srv.children dir).filter fun e => e.2 ≠ .special).reverse.flatMap
      (ftpEntryEvents srv (ftpEvents srv depth) dir)

theorem real_of_mem_single {srv : Server} {dir l : Loc} {name : QString} (hdir : srv.RealDir dir)
    (h : Event.removes l ∈ [Event.removes (dir ++ [name])]) : srv.RealDir l.dropLast := by
  obtain rfl : l = dir ++ [name] := by simpa using h
  rwa [List.dropLast_concat]

theorem real_of_mem_sshEvents {srv : Server} {depth : Nat} {dir l : Loc}
    (hdir : srv.RealDir dir) (h : .removes l ∈ sshEvents srv depth dir) :
    srv.RealDir l.dropLast := by
  induction depth generalizing dir with
  | zero => exact absurd h List.not_mem_nil
  | succ depth ih =>
    obtain ⟨⟨name, e⟩, he, h⟩ := List.mem_flatMap.mp h
    have hfind := Server.mem_children.mp (List.mem_reverse.mp he)
    cases e with
    | dir =>
      simp only [sshEntryEvents] at h
      split at h
      · exact real_of_mem_single hdir h
      · exact ih (hdir.concat hfind) h
    | reg => exact real_of_mem_single hdir h
    | link absolute target => exact real_of_mem_single hdir h
    | special => exact absurd h List.not_mem_nil

theorem ne_of_link {srv : Server} {pl dir : Loc} {name n : QString} {absolute : Bool}
    {target : List QString} {e : Entry} (hlink : srv.find pl name = some (.link absolute target))
    (he : srv.find dir n = some e) (hne : ∀ a t, e ≠ .link a t) : dir ++ [n] ≠ pl ++ [name] := by
  intro heq
  obtain ⟨rfl, rfl⟩ : dir = pl ∧ n = name := by simpa using heq
  exact hne _ _ (Option.some.inj (he.symm.trans hlink))

theorem real_of_mem_ftpEvents {srv : Server} {depth : Nat} {pl dir l : Loc} {name : QString}
    {absolute : Bool} {target : List QString}
    (hlink : srv.find pl name = some (.link absolute target)) (hdir : srv.RealDir dir)
    (h : .removes l ∈ ftpEvents srv depth dir) :
    srv.RealDir l.dropLast ∧ l ≠ pl ++ [name] := by
  induction depth generalizing dir with
  | zero => exact absurd h List.not_mem_nil
  | succ depth ih =>
    obtain ⟨⟨n, e⟩, he, h⟩ := List.mem_flatMap.mp h
    have hfind := Server.mem_children.mp (List.mem_of_mem_filter (List.mem_reverse.mp he))
    have hleaf : (∀ a t, e ≠ .link a t) → Event.removes l ∈ [Event.removes (dir ++ [n])] →
        srv.RealDir l.dropLast ∧ l ≠ pl ++ [name] := by
      intro hne h
      refine ⟨real_of_mem_single hdir h, ?_⟩
      obtain rfl : l = dir ++ [n] := by simpa using h
      exact ne_of_link hlink hfind hne
    cases e with
    | dir =>
      simp only [ftpEntryEvents] at h
      split at h
      · exact hleaf nofun h
      · rcases List.mem_append.mp h with h | h
        · exact ih (hdir.concat hfind) h
        · simp at h
    | reg => exact hleaf nofun h
    | link absolute target => exact absurd h List.not_mem_nil
    | special => exact hleaf nofun h

theorem eq_link_of_below {srv : Server} {dir l : Loc} {name : QString} {absolute : Bool}
    {target : List QString} (hlink : srv.find dir name = some (.link absolute target))
    (hreal : srv.RealDir l.dropLast) (h : dir ++ [name] <+: l) : l = dir ++ [name] := by
  rcases List.eq_nil_or_concat l with rfl | ⟨d, n, rfl⟩
  · exact (List.prefix_nil.mp h).symm
  · rw [List.concat_eq_append] at h hreal ⊢
    rcases List.prefix_concat_iff.mp h with h | h
    · exact h.symm
    · rw [List.dropLast_concat] at hreal
      have hdir := (Server.isDir_concat srv dir name).mp (hreal _ h)
      rw [hlink] at hdir
      cases hdir

/-! ## The first event -/

/-- How a run from `st` to `st'` starts, when it can meet these events. After it has removed
`root`, or is stuck, the run is stopped. -/
structure Outcome (Stop : Deleting → Prop) (root : Loc) (st : Deleting) (events : List Event)
    (st' : Deleting) : Prop where
  nothing : events = [] → st' = st
  stuck : events.head? = some .stuck → st'.removed = st.removed ∧ Stop st'
  removes : ∀ l, events.head? = some (.removes l) →
    ∃ more, st'.removed = st.removed ++ l :: more ∧ (l = root → more = [] ∧ Stop st')

section Outcome

variable {Stop : Deleting → Prop} {root : Loc} {st st₁ st₂ : Deleting} {a b : List Event}

theorem Outcome.same : Outcome Stop root st [] st :=
  ⟨fun _ => rfl, nofun, nofun⟩

theorem Outcome.single {l : Loc} (h : st₁.removed = st.removed ++ [l]) (hstop : l = root → Stop st₁) :
    Outcome Stop root st [.removes l] st₁ := by
  refine ⟨nofun, nofun, fun l' hl => ?_⟩
  obtain rfl : l = l' := by simpa using hl
  exact ⟨[], h, fun hroot => ⟨rfl, hstop hroot⟩⟩

theorem Outcome.trans (h : Outcome Stop root st a st₁)
    (hsame : st₁ = st → Outcome Stop root st b st₂) (hgrow : st₁.removed <+: st₂.removed)
    (hstop : Stop st₁ → Stop st₂ ∧ st₂.removed = st₁.removed) :
    Outcome Stop root st (a ++ b) st₂ := by
  cases a with
  | nil => exact hsame (h.nothing rfl)
  | cons event rest =>
    refine ⟨fun hnil => ?_, fun hstuck => ?_, fun l hl => ?_⟩
    · cases hnil
    · obtain ⟨hremoved, hs⟩ := h.stuck (by simpa using hstuck)
      obtain ⟨hs, heq⟩ := hstop hs
      exact ⟨heq.trans hremoved, hs⟩
    · obtain ⟨more, hremoved, hroot⟩ := h.removes l (by simpa using hl)
      obtain ⟨more', hmore⟩ := hgrow
      refine ⟨more ++ more', ?_, fun hl => ?_⟩
      · rw [← hmore, hremoved, List.append_assoc, List.cons_append]
      · obtain ⟨rfl, hs⟩ := hroot hl
        obtain ⟨hs, heq⟩ := hstop hs
        refine ⟨?_, hs⟩
        rw [heq] at hmore
        simpa using hmore

theorem Outcome.foldl {α : Type} {f : Deleting → α → Deleting} {events : α → List Event}
    {l : List α} (hfirst : ∀ a ∈ l, Outcome Stop root st (events a) (f st a))
    (hgrow : ∀ st a, st.removed <+: (f st a).removed)
    (hstop : ∀ st, ∀ a ∈ l, Stop st → Stop (f st a) ∧ (f st a).removed = st.removed) :
    Outcome Stop root st (l.flatMap events) (l.foldl f st) := by
  induction l with
  | nil => exact Outcome.same
  | cons a l ih =>
    rw [List.flatMap_cons, List.foldl_cons]
    refine (hfirst a List.mem_cons_self).trans (fun hsame => ?_) ?_ fun hs => ?_
    · rw [hsame]
      exact ih (fun a' ha' => hfirst a' (List.mem_cons_of_mem a ha'))
        fun st a' ha' => hstop st a' (List.mem_cons_of_mem a ha')
    · exact List.foldlRecOn l f (motive := fun st' => (f st a).removed <+: st'.removed)
        List.prefix_rfl fun st' h a' _ => h.trans (hgrow st' a')
    · refine List.foldlRecOn l f (motive := fun st' => Stop st' ∧ st'.removed = (f st a).removed)
        ⟨hs, rfl⟩ fun st' h a' ha' => ?_
      obtain ⟨hs', heq⟩ := hstop st' a' (List.mem_cons_of_mem a ha') h.1
      exact ⟨hs', heq.trans h.2⟩

end Outcome

/-! ## What is removed stays removed -/

section Grows

variable {path : QString} {st : Deleting} {depth : Nat}

theorem removeAt_grows {test : Server → Loc → Entry → Bool} :
    st.removed <+: (removeAt test path st).2.removed := by
  rcases removeAt_cases test path st with heq | ⟨dir, name, e, -, -, -, heq⟩
  · exact heq.symm ▸ List.prefix_rfl
  · exact heq.symm ▸ List.prefix_append _ _

theorem sshLast_grows : st.removed <+: (sshLast path st).removed := by
  unfold sshLast
  split
  · exact removeAt_grows
  · exact removeAt_grows

theorem sshEntry_grows {rm : QString → Deleting → Deleting} {e : QString × Entry}
    (hrm : ∀ path st, st.removed <+: (rm path st).removed) :
    st.removed <+: (sshEntry rm path st e).removed := by
  obtain ⟨name, e⟩ := e
  cases e with
  | dir => exact hrm _ st
  | reg => exact removeAt_grows
  | link absolute target => exact removeAt_grows
  | special => exact List.prefix_rfl

theorem sshRmEx_grows : st.removed <+: (sshRmEx depth path st).removed := by
  induction depth generalizing path st with
  | zero => exact sshLast_grows
  | succ depth ih =>
    refine List.IsPrefix.trans ?_ sshLast_grows
    exact List.foldlRecOn _ _ (motive := fun st' : Deleting => st.removed <+: st'.removed)
      List.prefix_rfl fun st' h e _ => h.trans (sshEntry_grows fun path st => ih)

theorem ftpLast_grows : st.removed <+: (ftpLast path st).2.removed := by
  have hrmdir : st.removed <+: (rmdir path st).2.removed := removeAt_grows
  unfold ftpLast
  split
  · exact List.prefix_rfl
  · simp only
    split
    · exact hrmdir
    · exact hrmdir

theorem ftpEntry_grows {rm : QString → Deleting → Bool × Deleting} {e : QString × Entry}
    (hrm : ∀ path st, st.removed <+: (rm path st).2.removed) :
    st.removed <+: (ftpEntry rm path st e).removed := by
  unfold ftpEntry
  split
  · exact List.prefix_rfl
  · obtain ⟨name, e⟩ := e
    cases e with
    | dir =>
      simp only
      split
      · exact hrm _ st
      · exact hrm _ st
    | reg => exact removeAt_grows
    | link absolute target => exact List.prefix_rfl
    | special => exact removeAt_grows

theorem ftpRmEx_grows {listFollows : Bool} :
    st.removed <+: (ftpRmEx listFollows depth path st).2.removed := by
  induction depth generalizing path st with
  | zero =>
    rw [ftpRmEx]
    split
    · exact ftpLast_grows
    · exact removeAt_grows
  | succ depth ih =>
    rw [ftpRmEx]
    split
    · refine List.IsPrefix.trans ?_ ftpLast_grows
      exact List.foldlRecOn _ _ (motive := fun st' : Deleting => st.removed <+: st'.removed)
        List.prefix_rfl fun st' h e _ => h.trans (ftpEntry_grows fun path st => ih)
    · exact removeAt_grows

end Grows

/-! ## Removing one entry -/

section OneEntry

variable {path : QString} {st : Deleting} {dir : Loc} {name : QString} {e : Entry}

theorem removeAt_child (test : Server → Loc → Entry → Bool)
    (hopen : openDir st.srv path = some dir) (he : st.srv.find dir name = some e) :
    removeAt test (childPath path name) st =
      if test st.srv (dir ++ [name]) e then
        (true, { st with
          srv := st.srv.remove dir name
          removed := st.removed ++ [dir ++ [name]] })
      else (false, st) := by
  obtain ⟨hr, hd⟩ := openDir_eq_some.mp hopen
  have hplace : st.srv.resolve false (childPath path name) = some (dir ++ [name]) :=
    Server.resolve_entry hr hd he nofun
  rw [removeAt, hplace]
  simp only [List.getLast?_concat, List.dropLast_concat, he]

theorem unlink_child (hopen : openDir st.srv path = some dir)
    (he : st.srv.find dir name = some e) (hne : e ≠ .dir) :
    unlink (childPath path name) st = (true, { st with
      srv := st.srv.remove dir name
      removed := st.removed ++ [dir ++ [name]] }) := by
  rw [unlink, removeAt_child _ hopen he, if_pos (by simpa using hne)]

theorem unlink_child_dir (hopen : openDir st.srv path = some dir)
    (he : st.srv.find dir name = some .dir) : unlink (childPath path name) st = (false, st) := by
  rw [unlink, removeAt_child _ hopen he, if_neg (by simp)]

theorem rmdir_child (hopen : openDir st.srv path = some dir)
    (he : st.srv.find dir name = some .dir) (hnil : st.srv.children (dir ++ [name]) = []) :
    rmdir (childPath path name) st = (true, { st with
      srv := st.srv.remove dir name
      removed := st.removed ++ [dir ++ [name]] }) := by
  rw [rmdir, removeAt_child _ hopen he, if_pos (by simp [hnil])]

theorem rmdir_child_fails (hopen : openDir st.srv path = some dir)
    (he : st.srv.find dir name = some e)
    (h : e = .dir → st.srv.children (dir ++ [name]) ≠ []) :
    rmdir (childPath path name) st = (false, st) := by
  rw [rmdir, removeAt_child _ hopen he, if_neg]
  simpa using h

end OneEntry

end NullFxp.Retriver
