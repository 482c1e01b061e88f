import NullFxp.RemoteDirModel.Requests

/-!
# The retrieval flags

A flag is meant to go from "no data" to "updating" when a listing is asked for, and to
"newest" when it arrives. A listing of the parent and the answer to a link write the flag too,
and the states in which they do no harm are `FlagsKept`.
-/

open Forest RowMap Runs

namespace NullFxp.RemoteDirModel

/-- A `READDIR` of `x` is queued, or its listing is in flight. -/
def ReaddirPending (s : System) (x : Nat) : Prop :=
  (∃ q ∈ s.model.commandQueue, q.parentItem = x ∧ q.cmd = .readdir) ∨
    ∃ i es, Event.retrived x i es ∈ s.events

/-- A node that waits for its listing is flagged as updating. -/
def UpdatingWhilePending (s : System) : Prop :=
  ∀ x xd, ReaddirPending s x → s.model.nodes x = some xd → xd.retrFlag = popUpdating

/-- The listing `es` of `p` is delivered and `events` stay: `p` waits for no other listing, no row
that is still listed waits for one, and no such row is "newest" while it is listed as a directory
or a link or is known to lead to a directory. -/
structure RefreshHarmless (s : System) (p : Nat) (es : List NetDirNode) (events : List Event) :
    Prop where
  self : ¬ ReaddirPending { s with events := events } p
  row : ∀ c cd, par s.model c = some p → s.model.nodes c = some cd →
    cd.fileName ∈ es.map (fun e => e.fileName) → ¬ ReaddirPending { s with events := events } c
  newest : ∀ c cd e, par s.model c = some p → s.model.nodes c = some cd →
    Model.entryFor es cd.fileName = some e → cd.retrFlag = popNewest →
      ¬ e.isDir ∧ ¬ e.isSymLink ∧ cd.linkToDir = false

/-- The steps that leave the flags right. -/
def FlagsKept (s : System) (a : Action) : Prop :=
  a = .deliver →
    (∀ p i es events, s.events = .retrived p i es :: events → RefreshHarmless s p es events) ∧
    ∀ p i status events, s.events = .finished p i .realpath status :: events → status ≠ 0 →
      ¬ ReaddirPending s p

structure FlagsOk (s : System) (a : Action) (s' : System) : Prop where
  updating : UpdatingWhilePending s'
  /-- `rowCount` does not ask twice. -/
  once : ∀ p, a = .query p → ReaddirPending s p → s'.model.commandQueue = s.model.commandQueue
  /-- A listing leaves a row that is listed and "newest" as it was. -/
  kept : a = .deliver → ∀ p i es events, s.events = .retrived p i es :: events → ∀ c cd cd',
    par s.model c = some p → s.model.nodes c = some cd → cd.fileName ∈ es.map (fun e => e.fileName) →
    s'.model.nodes c = some cd' → cd.retrFlag = popNewest →
      cd'.retrFlag ≠ popNoNeedNoData ∧ (cd.linkToDir = true → cd'.linkToDir = true)

/-- What the retriever knows about the entries that it sends. -/
def EntriesFlagged (s : System) : Prop :=
  ∀ p i es, Event.retrived p i es ∈ s.events → ∀ e ∈ es, e.retrFlag = popNoNeedNoData →
    e.isDir = true ∨ e.isSymLink = true

/-- Nobody waits for a node that does not exist yet. -/
def PendingKnown (s : System) : Prop := ∀ x, ReaddirPending s x → x < s.model.next

theorem retriveDir_flagged {proto : Protocol} {pd : NetDirNode} {entries : List (QString × Attrib)}
    {e : NetDirNode} (he : e ∈ retriveDir proto pd entries) (hflag : e.retrFlag = popNoNeedNoData) :
    e.isDir = true ∨ e.isSymLink = true := by
  rw [retriveDir, List.mem_mapIdx] at he
  obtain ⟨i, hi, rfl⟩ := he
  simp only [newItem, entryFlag] at hflag ⊢
  split at hflag
  · assumption
  · exact absurd hflag (by decide)

theorem Moved.entriesFlagged {proto : Protocol} {s s' : System} {a : Action}
    (h : Moved proto s a s') (hs : EntriesFlagged s) : EntriesFlagged s' := by
  intro p i es he e hmem hflag
  rcases h.events he with he | ⟨q, qd, -, ⟨entries, params, -, he⟩ | ⟨cmd, status, he⟩⟩
  · exact hs p i es he e hmem hflag
  · cases he
    exact retriveDir_flagged hmem hflag
  · cases he

theorem Moved.pendingKnown {proto : Protocol} {s s' : System} {a : Action} (hs : Consistent s)
    (hk : PendingKnown s) (h : Moved proto s a s') : PendingKnown s' := by
  intro x hx
  have hxs : x < s.model.next := by
    rcases hx with ⟨q, hq, rfl, hcmd⟩ | ⟨i, es, he⟩
    · rcases h.queue hq with hq | ⟨-, nd, hnd⟩
      · exact hk _ (Or.inl ⟨q, hq, rfl, hcmd⟩)
      · exact hs.wellFormed.fresh _ nd hnd
    · rcases h.events he with he | ⟨p, pd, hp, ⟨entries, params, -, he⟩ | ⟨cmd, status, he⟩⟩
      · exact hk _ (Or.inr ⟨i, es, he⟩)
      · cases he
        exact hs.wellFormed.fresh _ pd hp
      · cases he
  exact lt_of_lt_of_le hxs h.next_le

/-! ## The step lemma -/

theorem withRequest_updating {m : Model} {events : List Event} {p : Nat} {pd : NetDirNode}
    (hs : ∀ x xd, x ≠ p → ReaddirPending ⟨m, events⟩ x → m.nodes x = some xd →
      xd.retrFlag = popUpdating) : UpdatingWhilePending ⟨m.withRequest p pd, events⟩ := by
  intro x xd hx hxd
  have hxd : (m.set p pd.updating).nodes x = some xd := hxd
  by_cases hxp : x = p
  · subst hxp
    rw [Model.set_nodes_self] at hxd
    obtain rfl := Option.some.inj hxd
    rfl
  · rw [Model.set_nodes_ne _ _ hxp] at hxd
    refine hs x xd hxp ?_ hxd
    rcases hx with ⟨q, hq, rfl, hcmd⟩ | he
    · rcases List.mem_append.mp hq with hq | hq
      · exact Or.inl ⟨q, hq, rfl, hcmd⟩
      · exact absurd (congrArg QueueElem.parentItem (List.mem_singleton.mp hq)) hxp
    · exact Or.inr he

theorem set_updating {m : Model} {events : List Event} {p : Nat} {pd pd' : NetDirNode}
    (hp : m.nodes p = some pd) (hflag : pd'.retrFlag = pd.retrFlag)
    (hs : UpdatingWhilePending ⟨m, events⟩) : UpdatingWhilePending ⟨m.set p pd', events⟩ := by
  intro x xd hx hxd
  have hxd : (m.set p pd').nodes x = some xd := hxd
  by_cases hxp : x = p
  · subst hxp
    rw [Model.set_nodes_self] at hxd
    obtain rfl := Option.some.inj hxd
    rw [hflag]
    exact hs x pd hx hp
  · rw [Model.set_nodes_ne _ _ hxp] at hxd
    exact hs x xd hx hxd

theorem UpdatingWhilePending.mono {m : Model} {q : List QueueElem} {events events' : List Event}
    (hs : UpdatingWhilePending ⟨m, events⟩)
    (h : ∀ x, ReaddirPending ⟨{ m with commandQueue := q }, events'⟩ x →
      ReaddirPending ⟨m, events⟩ x) :
    UpdatingWhilePending ⟨{ m with commandQueue := q }, events'⟩ :=
  fun x xd hx hxd => hs x xd (h x hx) hxd

theorem pending_of_rest {s : System} {e : Event} {events : List Event} (he : s.events = e :: events)
    {x : Nat} (hx : ReaddirPending { s with events := events } x) : ReaddirPending s x := by
  rcases hx with hq | ⟨i, es, hev⟩
  · exact Or.inl hq
  · exact Or.inr ⟨i, es, he ▸ List.mem_cons_of_mem _ hev⟩

theorem pending_of_queued {s : System} {m : Model} {q : QueueElem}
    (hq : m.commandQueue = s.model.commandQueue ++ [q]) (hcmd : q.cmd ≠ .readdir) {x : Nat}
    (hx : ReaddirPending { s with model := m } x) : ReaddirPending s x := by
  rcases hx with ⟨q', hmem, rfl, hread⟩ | hev
  · rcases List.mem_append.mp (hq ▸ hmem) with hmem | hmem
    · exact Or.inl ⟨q', hmem, rfl, hread⟩
    · rw [List.mem_singleton.mp hmem] at hread
      exact absurd hread hcmd
  · exact Or.inr hev

theorem pending_of_worked {s : System} {m : Model} {q : QueueElem} {rest : List QueueElem} {p i : Nat}
    {cmd : Command} {status : Int} (hq : s.model.commandQueue = q :: rest)
    (hm : m.commandQueue = rest) {x : Nat}
    (hx : ReaddirPending ⟨m, s.events ++ [.finished p i cmd status]⟩ x) : ReaddirPending s x := by
  rcases hx with ⟨q', hmem, rfl, hread⟩ | ⟨i, es, hev⟩
  · refine Or.inl ⟨q', ?_, rfl, hread⟩
    rw [hq, ← hm]
    exact List.mem_cons_of_mem _ hmem
  · rcases List.mem_append.mp hev with hev | hev
    · exact Or.inr ⟨i, es, hev⟩
    · cases List.mem_singleton.mp hev

theorem UpdatingWhilePending.rest {s : System} {e : Event} {events : List Event}
    (hu : UpdatingWhilePending s) (he : s.events = e :: events) :
    UpdatingWhilePending { s with events := events } :=
  fun x xd hx hxd => hu x xd (pending_of_rest he hx) hxd

theorem refresh_updating {s : System} {p : Nat} {pd : NetDirNode} {l : List Nat}
    {es : List NetDirNode} {events : List Event} {m' : Model} (hs : Consistent s)
    (hk : PendingKnown s) (hu : UpdatingWhilePending s) (he : s.events = .retrived p p es :: events)
    (hp : s.model.nodes p = some pd) (hl : Children pd l) (hr : Refreshed s.model m' p pd l es)
    (hcond : RefreshHarmless s p es events) : UpdatingWhilePending ⟨m', events⟩ := by
  have hflag : pd.retrFlag = popUpdating := hu p pd (Or.inr ⟨p, es, by simp [he]⟩) hp
  intro x xd hx hxd
  have hxd : m'.nodes x = some xd := hxd
  have hx : ReaddirPending { s with events := events } x := by
    rcases hx with ⟨q, hq, rfl, hcmd⟩ | hev
    · have hq : q ∈ m'.commandQueue := hq
      rw [hr.queue, asked, hflag, if_neg (by decide), List.append_nil] at hq
      exact Or.inl ⟨q, hq, rfl, hcmd⟩
    · exact Or.inr hev
  have hxs := pending_of_rest he hx
  have hxp : x ≠ p := fun h => hcond.self (h ▸ hx)
  by_cases hdrop : Dropped s.model es l x
  · simp [hr.gone x hdrop] at hxd
  by_cases hxl : x ∈ l
  · obtain ⟨cd, hcd⟩ := child_live hs.wellFormed hp hl hxl
    have hpar := (hs.wellFormed.mem_children hp hl x).mp hxl
    refine absurd hx (hcond.row x cd hpar hcd ?_)
    rw [← entryFor_isSome]
    by_contra hnone
    refine hdrop ⟨x, hxl, ?_, below_refl x⟩
    rw [entryOf_eq hcd]
    simpa using hnone
  · rw [hr.frame x hxp hxl (hk x hxs) hdrop] at hxd
    exact hu x xd hxs hxd

theorem Moved.updating {proto : Protocol} {s s' : System} {a : Action} (hs : Consistent s)
    (hk : PendingKnown s) (hu : UpdatingWhilePending s) (hcond : FlagsKept s a)
    (h : Moved proto s a s') : UpdatingWhilePending s' := by
  cases h with
  | idle => exact hu
  | ask => exact withRequest_updating fun x xd _ hx hxd => hu x xd hx hxd
  | exec _ hcmd =>
    refine hu.mono fun x hx => pending_of_queued rfl ?_ hx
    rintro rfl
    exact absurd hcmd (by decide)
  | rename hn =>
    exact UpdatingWhilePending.mono (set_updating hn rfl hu) fun x hx =>
      pending_of_queued rfl (by simp) hx
  | list hq =>
    refine hu.mono fun x hx => ?_
    rcases hx with ⟨q, hmem, rfl, hread⟩ | ⟨i, es, hev⟩
    · exact Or.inl ⟨q, hq ▸ List.mem_cons_of_mem _ hmem, rfl, hread⟩
    · rcases List.mem_append.mp hev with hev | hev
      · exact Or.inr ⟨i, es, hev⟩
      -- The command has become a listing.
      · rcases List.mem_cons.mp hev with hev | hev
        · cases hev
          exact Or.inl ⟨_, hq ▸ List.mem_cons_self, rfl, rfl⟩
        · cases List.mem_singleton.mp hev
  | resolve hq => exact hu.mono fun x hx => pending_of_worked hq rfl hx
  | change hq =>
    exact withRequest_updating fun x xd _ hx hxd => hu x xd (pending_of_worked hq rfl hx) hxd
  | refresh he hp hl hr => exact refresh_updating hs hk hu he hp hl hr ((hcond rfl).1 _ _ _ _ he)
  | done he => exact hu.rest he
  | linked he hp => exact set_updating hp rfl (hu.rest he)
  | follow he hp =>
    refine withRequest_updating fun x xd hxp hx hxd => hu.rest he x xd hx ?_
    rwa [Model.set_nodes_ne _ _ hxp] at hxd
  | @broken p pd status events he hstatus hp =>
    intro x xd hx hxd
    have hx : ReaddirPending s x := pending_of_rest he hx
    have hxp : x ≠ p := fun h => (hcond rfl).2 p p status events he hstatus (h ▸ hx)
    have hxd : (s.model.set p { pd with prevFlag := pd.retrFlag, retrFlag := popNewest }).nodes x
      = some xd := hxd
    rw [Model.set_nodes_ne _ _ hxp] at hxd
    exact hu x xd hx hxd

/-! ## Runs -/

structure FlagsInv (s : System) : Prop where
  consistent : Consistent s
  known : PendingKnown s
  flagged : EntriesFlagged s
  updating : UpdatingWhilePending s

theorem flagsInv_start {home : QString} {m : Model}
    (h : Model.empty.setUserHomePath home = some m) : FlagsInv ⟨m, []⟩ := by
  have hnone : ∀ x, ¬ ReaddirPending ⟨m, []⟩ x := by
    rintro x (⟨q, hq, -⟩ | ⟨i, es, he⟩)
    · have hq : q ∈ m.commandQueue := hq
      simp [(setUserHomePath_spec h).2] at hq
    · simp at he
  exact ⟨consistent_start h, fun x hx => absurd hx (hnone x), by simp [EntriesFlagged],
    fun x _ hx => absurd hx (hnone x)⟩

theorem Moved.flagsInv {proto : Protocol} {s s' : System} {a : Action} (hs : FlagsInv s)
    (hcond : FlagsKept s a) (h : Moved proto s a s') : FlagsInv s' :=
  ⟨h.consistent hs.consistent, h.pendingKnown hs.consistent hs.known,
    h.entriesFlagged hs.flagged, h.updating hs.consistent hs.known hs.updating hcond⟩

theorem Moved.flagsOk {proto : Protocol} {s s' : System} {a : Action} (hs : FlagsInv s)
    (hcond : FlagsKept s a) (h : Moved proto s a s') : FlagsOk s a s' := by
  refine ⟨(h.flagsInv hs hcond).updating, ?_, ?_⟩
  · rintro p rfl hp
    cases h with
    | idle => rfl
    | ask _ hq hflag =>
      obtain ⟨rfl, hwants⟩ := hflag p rfl
      rw [hs.updating p _ hp hq] at hwants
      exact absurd hwants (by decide)
  · rintro rfl p i es events he c cd cd' hpar hc hlisted hc' hnewest
    obtain ⟨e, hentry⟩ := Option.isSome_iff_exists.mp (entryFor_isSome.mpr hlisted)
    obtain ⟨hdir, hlink, hto⟩ := ((hcond rfl).1 p i es events he).newest c cd e hpar hc hentry hnewest
    refine ⟨?_, fun h => absurd h (by simp [hto])⟩
    cases h with
    | idle hne => exact absurd rfl hne
    | ask hne => exact absurd rfl hne
    | refresh he' hp hl hr =>
      rw [he] at he'
      cases he'
      have hcl := (hs.consistent.wellFormed.mem_children hp hl c).mpr hpar
      obtain ⟨row, hrow⟩ := hr.kept c hcl cd e hc hentry
      rw [show _ = some cd' from hc'] at hrow
      obtain rfl := Option.some.inj hrow
      intro hno
      rcases hs.flagged p p es (by simp [he]) e (entryFor_some hentry).1 hno with h | h
      · exact hdir h
      · exact hlink h
    | done he' => rw [he] at he'; cases he'
    | linked he' => rw [he] at he'; cases he'
    | follow he' => rw [he] at he'; cases he'
    | broken he' => rw [he] at he'; cases he'

/-- **The retrieval flags follow their state machine**, in every run whose steps keep them. -/
theorem flags_follow (proto : Protocol) (home : QString) (m₀ : Model)
    (h0 : Model.empty.setUserHomePath home = some m₀) (as : List Action) (a : Action)
    (s s' : System) (hmeets : Meets (System.step proto) FlagsKept ⟨m₀, []⟩ (as ++ [a]))
    (hr : run (System.step proto) ⟨m₀, []⟩ as = some s) (hstep : s.step proto a = some s') :
    UpdatingWhilePending s ∧ FlagsOk s a s' := by
  obtain ⟨hpre, hlast, -⟩ := meets_append hmeets hr
  have hs : FlagsInv s := by
    refine run_invariant_of_meets FlagsInv ?_ (flagsInv_start h0) hpre hr
    intro s a s' hs hcond hstep
    exact (step_moved hs.consistent hstep).flagsInv hs hcond
  exact ⟨hs.updating, (step_moved hs.consistent hstep).flagsOk hs hlast⟩

theorem flags_follow_home : ∃ m₀ s s', Model.empty.setUserHomePath ['/', 'a'] = some m₀ ∧
    Meets (System.step .sftp) FlagsKept ⟨m₀, []⟩ ([.query 1] ++ [.query 1]) ∧
    run (System.step .sftp) ⟨m₀, []⟩ [.query 1] = some s ∧ s.step .sftp (.query 1) = some s' ∧
    UpdatingWhilePending s ∧ FlagsOk s (.query 1) s' := by
  obtain ⟨m₀, s', h0, hr', -⟩ := runFrom_any .sftp ['/', 'a']
    ([.query 1] ++ [.query 1]) (fun _ => true) (by decide)
  obtain ⟨s, hr, hlast⟩ := run_append.mp hr'
  obtain ⟨t, hstep, ht⟩ := run_cons.mp hlast
  obtain rfl : t = s' := by simpa [run] using ht
  have hmeets : Meets (System.step .sftp) FlagsKept ⟨m₀, []⟩ ([.query 1] ++ [.query 1]) :=
    ⟨by simp [FlagsKept], fun _ _ => ⟨by simp [FlagsKept], fun _ _ => trivial⟩⟩
  exact ⟨m₀, s, t, h0, hmeets, hr, hstep, flags_follow .sftp _ m₀ h0 _ _ s t hmeets hr hstep⟩

/-- Is a `READDIR` of `p` queued while `p` has another flag than "updating"? -/
def lostFlag (s : System) (p : Nat) : Bool :=
  s.model.commandQueue.any (fun q => q.parentItem = p ∧ q.cmd = .readdir) &&
    (s.model.nodes p).any fun nd => nd.retrFlag ≠ popUpdating

theorem lostFlag_spec {s : System} {p : Nat} (h : lostFlag s p = true) :
    ¬ UpdatingWhilePending s := by
  rw [lostFlag, Bool.and_eq_true, List.any_eq_true, Option.any_eq_true] at h
  obtain ⟨⟨q, hq, hread⟩, nd, hnd, hflag⟩ := h
  intro hu
  obtain ⟨hqp, hcmd⟩ := of_decide_eq_true hread
  exact of_decide_eq_true hflag (hu p nd (Or.inl ⟨q, hq, hqp, hcmd⟩) hnd)

theorem flag_lost_in_refresh : ∃ m₀ s, Model.empty.setUserHomePath ['/', 'a'] = some m₀ ∧
    run (System.step .sftp) ⟨m₀, []⟩ [.click 0, .query 1,
      .work [(['a'], { Attrib.zero with permissions := 16877 })] 0, .deliver] = some s ∧
    ¬ UpdatingWhilePending s := by
  -- Both `/` and `/a` are being listed. The listing of `/` arrives first, and resets the flag of
  -- `/a`.
  obtain ⟨m₀, s, h0, hr, hlost⟩ := runFrom_any .sftp ['/', 'a']
    [.click 0, .query 1, .work [(['a'], { Attrib.zero with permissions := 16877 })] 0,
      .deliver] (fun s => lostFlag s 1) (by decide)
  exact ⟨m₀, s, h0, hr, lostFlag_spec hlost⟩

end NullFxp.RemoteDirModel
