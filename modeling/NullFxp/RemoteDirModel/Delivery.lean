import NullFxp.RemoteDirModel.Requests

/-!
# A listing and the node it is for

Commands and signals carry the address of a node. A listing of a directory above may delete
that node first, so deliveries are safe in just those runs in which no listing drops a node
that is still waited for.
-/

open Forest RowMap Runs

namespace NullFxp.RemoteDirModel

/-- A listing of `x` is on its way: it is in flight, asked for, or will be asked for by a command
that changes the directory. -/
def ListingPending (s : System) (x : Nat) : Prop :=
  (∃ q ∈ s.model.commandQueue, q.parentItem = x ∧ q.cmd ≠ .realpath) ∨
    ∃ i es, Event.retrived x i es ∈ s.events

/-- If the step delivers a listing, then no node that the listing drops, nor a node below one, has
a listing on its way. -/
def DropsNoPending (s : System) (a : Action) : Prop :=
  a = .deliver → ∀ p i es events, s.events = .retrived p i es :: events →
    ∀ pd l, s.model.nodes p = some pd → Children pd l →
      ∀ x, Dropped s.model es l x → ¬ ListingPending { s with events := events } x

def PendingLive (s : System) : Prop := ∀ x, ListingPending s x → ∃ xd, s.model.nodes x = some xd

/-- What has to hold when a listing is next to be handled. -/
structure DeliverySafe (m : Model) (p i : Nat) (es : List NetDirNode) : Prop where
  live : ∃ pd, m.nodes p = some pd
  valid : (m.persistent i).IsValid
  lookUp : ∃ idx, m.lookUp i (m.persistent i).column = some idx ∧ idx.internalPointer = some p
  /-- The slot then returns, up to the leftover assertion on one name and the limit on rows. -/
  returns : ∀ pd l, m.nodes p = some pd → Children pd l →
    ((∃ m', m.slotRemoteDirNodeRetrived p i es = some m') ↔
      pd.fileName ≠ ['.', 'w', 'i', 'c', 'd'] ∧
        (keptRows m es l).length + (addedEntries m es l).length ≤ 32768)

theorem Refreshed.live {m m' : Model} {p : Nat} {pd : NetDirNode} {l : List Nat}
    {es : List NetDirNode} (hm : WellFormed m) (h : Refreshed m m' p pd l es) {x : Nat}
    {xd : NetDirNode} (hx : m.nodes x = some xd) (hxd : ¬ Dropped m es l x) :
    ∃ xd', m'.nodes x = some xd' := by
  by_cases hxp : x = p
  · obtain ⟨cn, hcn, -⟩ := h.parent
    exact ⟨_, hxp ▸ hcn⟩
  by_cases hxl : x ∈ l
  · cases he : Model.entryFor es xd.fileName with
    | none => exact absurd ⟨x, hxl, by rw [entryOf_eq hx, he], below_refl x⟩ hxd
    | some e =>
      obtain ⟨row, hrow⟩ := h.kept x hxl xd e hx he
      exact ⟨_, hrow⟩
  · exact ⟨xd, (h.frame x hxp hxl (hm.fresh x xd hx) hxd).trans hx⟩

theorem Moved.listingPending {proto : Protocol} {s s' : System} {a : Action}
    (h : Moved proto s a s') {x : Nat} (hx : ListingPending s' x) :
    ListingPending s x ∨ ∃ xd, s.model.nodes x = some xd := by
  rcases hx with ⟨q, hq, rfl, hcmd⟩ | ⟨i, es, he⟩
  · rcases h.queue hq with hq | ⟨-, hlive⟩
    · exact Or.inl (Or.inl ⟨q, hq, rfl, hcmd⟩)
    · exact Or.inr hlive
  · rcases h.events he with he | ⟨p, pd, hp, ⟨entries, params, -, he⟩ | ⟨cmd, status, he⟩⟩
    · exact Or.inl (Or.inr ⟨i, es, he⟩)
    · cases he
      exact Or.inr ⟨pd, hp⟩
    · cases he

theorem Moved.pendingLive {proto : Protocol} {s s' : System} {a : Action} (hs : Consistent s)
    (hlive : PendingLive s) (hcond : DropsNoPending s a) (h : Moved proto s a s') :
    PendingLive s' := by
  intro x hx
  have hxs : ∃ xd, s.model.nodes x = some xd := by
    rcases h.listingPending hx with hx | hx
    · exact hlive x hx
    · exact hx
  obtain ⟨xd, hxd⟩ := hxs
  rcases h.dataOnly with hdata | ⟨rfl, p, pd, l, es, he, hp, hl, hr⟩
  · obtain ⟨xd', hxd', -⟩ := hdata.live x xd hxd
    exact ⟨xd', hxd'⟩
  by_cases hxp : x = p
  · obtain ⟨cn, hcn, -⟩ := hr.parent
    exact ⟨_, hxp ▸ hcn⟩
  refine hr.live hs.wellFormed hxd fun hdrop => hcond rfl p p es _ he pd l hp hl x hdrop ?_
  -- Only a request for `p` itself can be new.
  rcases hx with ⟨q, hq, rfl, hcmd⟩ | hev
  · rw [hr.queue, asked] at hq
    rcases List.mem_append.mp hq with hq | hq
    · exact Or.inl ⟨q, hq, rfl, hcmd⟩
    · split at hq
      · exact absurd (congrArg QueueElem.parentItem (List.mem_singleton.mp hq)) hxp
      · simp at hq
  · exact Or.inr hev

theorem deliverySafe {m : Model} (hm : WellFormed m) {p : Nat} {pd : NetDirNode}
    (hp : m.nodes p = some pd) (es : List NetDirNode) : DeliverySafe m p p es := by
  obtain ⟨hidx, hcol, i, hpar, hindex⟩ := persistent_spec hm hp
  refine ⟨⟨pd, hp⟩, hidx.1, ⟨m.persistent p, ?_, hidx.2⟩, ?_⟩
  · rw [Model.lookUp, hpar, hcol]
    exact hindex
  · intro pd' l hp' hl
    rw [hp] at hp'
    obtain rfl := Option.some.inj hp'
    constructor
    · rintro ⟨m', hslot⟩
      refine ⟨fun hname => ?_, ?_⟩
      · rw [slotRemoteDirNodeRetrived_wicd hm hp hname] at hslot
        simp at hslot
      · have hr := slot_refreshed hm hp hl hslot
        obtain ⟨cn, hcn, hrows⟩ := hr.parent
        simpa using hr.wellFormed.children_length hcn hrows
    · rintro ⟨hname, hle⟩
      obtain ⟨m', hslot, -⟩ := (slotRemoteDirNodeRetrived_spec hm hp hl hname es).1 hle
      exact ⟨m', hslot⟩

/-- **A delivered listing belongs to a node of the tree**, in every run in which no listing drops a
node that is waited for. -/
theorem delivery_safe (proto : Protocol) (home : QString) (m₀ : Model)
    (h0 : Model.empty.setUserHomePath home = some m₀) (as : List Action) (s : System)
    (hmeets : Meets (System.step proto) DropsNoPending ⟨m₀, []⟩ as)
    (hr : run (System.step proto) ⟨m₀, []⟩ as = some s) (p i : Nat) (es : List NetDirNode)
    (events : List Event) (he : s.events = .retrived p i es :: events) :
    DeliverySafe s.model p i es := by
  have hinv : Consistent s ∧ PendingLive s := by
    refine run_invariant_of_meets (fun s => Consistent s ∧ PendingLive s) ?_ ?_ hmeets hr
    · rintro s a s' ⟨hs, hlive⟩ hcond hstep
      have hmoved := step_moved hs hstep
      exact ⟨hmoved.consistent hs, hmoved.pendingLive hs hlive hcond⟩
    · refine ⟨consistent_start h0, ?_⟩
      rintro x (⟨q, hq, -⟩ | ⟨i, es, he⟩)
      · have hq : q ∈ m₀.commandQueue := hq
        simp [(setUserHomePath_spec h0).2] at hq
      · simp at he
  obtain ⟨hs, hlive⟩ := hinv
  obtain rfl := hs.retrived p i es (by simp [he])
  obtain ⟨pd, hp⟩ := hlive i (Or.inr ⟨i, es, by simp [he]⟩)
  exact deliverySafe hs.wellFormed hp es

/-- Is a listing for `p` the next signal, and what does the tree have at `p`? -/
def nextListing (s : System) (p : Nat) (live : Bool) : Bool :=
  match s.events with
  | .retrived q i _ :: _ => q = p ∧ i = p ∧ (s.model.nodes p).isSome = live
  | _ => false

theorem nextListing_spec {s : System} {p : Nat} {live : Bool} (h : nextListing s p live = true) :
    (∃ es events, s.events = .retrived p p es :: events) ∧ (s.model.nodes p).isSome = live := by
  rw [nextListing] at h
  split at h
  · rename_i q i es events he
    obtain ⟨rfl, rfl, hlive⟩ := of_decide_eq_true h
    exact ⟨⟨es, events, he⟩, hlive⟩
  · simp at h

theorem delivery_safe_home : ∃ m₀ s es events,
    Model.empty.setUserHomePath ['/', 'a'] = some m₀ ∧
    Meets (System.step .sftp) DropsNoPending ⟨m₀, []⟩ [.query 1, .work [(['b'], .zero)] 0] ∧
    run (System.step .sftp) ⟨m₀, []⟩ [.query 1, .work [(['b'], .zero)] 0] = some s ∧
    s.events = .retrived 1 1 es :: events ∧ DeliverySafe s.model 1 1 es := by
  obtain ⟨m₀, s, h0, hr, hnext⟩ := runFrom_any .sftp ['/', 'a']
    [.query 1, .work [(['b'], .zero)] 0] (fun s => nextListing s 1 true) (by decide)
  obtain ⟨⟨es, events, he⟩, -⟩ := nextListing_spec hnext
  have hmeets : Meets (System.step .sftp) DropsNoPending ⟨m₀, []⟩
      [.query 1, .work [(['b'], .zero)] 0] :=
    ⟨nofun, fun _ _ => ⟨nofun, fun _ _ => trivial⟩⟩
  exact ⟨m₀, s, es, events, h0, hmeets, hr, he,
    delivery_safe .sftp _ m₀ h0 _ s hmeets hr 1 1 es events he⟩

theorem delivery_of_deleted_node : ∃ m₀ s es events,
    Model.empty.setUserHomePath ['/', 'a', '/', 'b'] = some m₀ ∧
    run (System.step .sftp) ⟨m₀, []⟩
      [.click 1, .query 2, .work [] 0, .work [] 0, .deliver, .deliver] = some s ∧
    s.events = .retrived 2 2 es :: events ∧ s.model.nodes 2 = none ∧
      ¬ DeliverySafe s.model 2 2 es := by
  -- The directory `/a/b` is being listed when a listing of `/a` without it arrives. The listing of
  -- `/a/b` comes next, for a node that has been deleted.
  obtain ⟨m₀, s, h0, hr, hnext⟩ := runFrom_any .sftp ['/', 'a', '/', 'b']
    [.click 1, .query 2, .work [] 0, .work [] 0, .deliver, .deliver]
    (fun s => nextListing s 2 false) (by decide)
  obtain ⟨⟨es, events, he⟩, hgone⟩ := nextListing_spec hnext
  have hnone : s.model.nodes 2 = none := by simpa using hgone
  refine ⟨m₀, s, es, events, h0, hr, he, hnone, fun h => ?_⟩
  obtain ⟨pd, hp⟩ := h.live
  simp [hnone] at hp

end NullFxp.RemoteDirModel
