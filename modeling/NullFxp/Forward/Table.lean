import Mathlib.Data.List.Nodup
import NullFxp.Forward.Relay

/-!
# The table of the forwards

A poll collects the channels that it finds closed in an array of 100 slots, and then removes their
forwards one by one. A socket that is disconnected removes its own, and a new listener removes all of
them. Whoever removes a forward closes and frees its channel, once.
-/

open Runs

namespace NullFxp.Forward

/-! ## Which channels are freed -/

/-- The worker, and the channels that were freed so far. -/
structure Freeing where
  worker : Worker := {}
  freed : List Nat := []

/-- An event, and for each channel whether `libssh2_channel_free` gets through in it. The session does
not block: until the peer's `CLOSE` is in, or the connection is lost, the call returns
`LIBSSH2_ERROR_EAGAIN` and has freed nothing. -/
structure Turn where
  event : Event
  frees : Nat → Bool

namespace Freeing

section Slots

variable (frees : Nat → Bool)

/-- `libssh2_channel_close` and `libssh2_channel_free`, whose results nobody looks at. -/
def free (chans : List Nat) (s : Freeing) : List Nat := s.freed ++ chans.filter frees

/-- `remove_forward_by_channel` -/
def remove (s : Freeing) (chan : Nat) : Freeing where
  worker := removeForwardByChannel s.worker chan
  freed := s.free frees ((s.worker.mfwds.find? fun f => f.chan = chan).map Fwd.chan).toList

/-- `set_listener` -/
def relisten (s : Freeing) : Freeing where
  worker := setListener s.worker
  freed := s.free frees (s.worker.mfwds.map Fwd.chan)

def accepted (p : Poll) (s : Freeing) : Freeing :=
  match p.accept with
  | some _ => { s with worker := Forward.accepted p s.worker }
  | none => if p.eno = errorChannelUnknown && p.relistened then s.relisten frees else s

def slotPollTimeout (p : Poll) (s : Freeing) : Freeing :=
  let s := s.accepted frees p
  let (relayed, inv) := pollLoop p.reads s.worker.mfwds
  let s := { s with worker := s.worker.log (relayTrace relayed) }
  if 100 < inv.length then { s with worker := { s.worker with overrun := true } }
  else inv.foldl (remove frees) s

def slotForwardDestDisconnected (sock : Nat) (s : Freeing) : Freeing where
  worker := Forward.slotForwardDestDisconnected sock s.worker
  freed := s.free frees ((s.worker.mfwds.find? fun f => f.sock = sock).map Fwd.chan).toList

end Slots

def step (s : Freeing) (t : Turn) : Option Freeing :=
  (Forward.step s.worker t.event).map fun w =>
    match t.event with
    | .readyRead _ _ _ => { s with worker := w }
    | .poll p => s.slotPollTimeout t.frees p
    | .disconnected sock => s.slotForwardDestDisconnected t.frees sock
    | .setListener => s.relisten t.frees

theorem accepted_worker (frees : Nat → Bool) (p : Poll) (s : Freeing) :
    (s.accepted frees p).worker = Forward.accepted p s.worker := by
  unfold Freeing.accepted Forward.accepted
  cases p.accept with
  | some f => rfl
  | none =>
    simp only
    split <;> rfl

theorem foldl_remove_worker (frees : Nat → Bool) (chans : List Nat) (s : Freeing) :
    (chans.foldl (remove frees) s).worker = chans.foldl removeForwardByChannel s.worker := by
  induction chans generalizing s with
  | nil => rfl
  | cons c chans ih => exact ih (s.remove frees c)

theorem slotPollTimeout_worker (frees : Nat → Bool) (p : Poll) (s : Freeing) :
    (s.slotPollTimeout frees p).worker = Forward.slotPollTimeout p s.worker := by
  simp only [Freeing.slotPollTimeout, Forward.slotPollTimeout, accepted_worker]
  split
  · rfl
  · exact foldl_remove_worker _ _ _

theorem step_worker (s : Freeing) (t : Turn) :
    (s.step t).map Freeing.worker = Forward.step s.worker t.event := by
  obtain ⟨e, frees⟩ := t
  unfold Freeing.step
  rw [Option.map_map]
  simp only
  cases hstep : Forward.step s.worker e with
  | none => rfl
  | some w =>
    rw [Option.map_some, Function.comp_apply]
    unfold Forward.step at hstep
    split at hstep
    · cases hstep
    · cases e with
      | readyRead sock chunk writes => rfl
      | poll p =>
        simp only at hstep
        split at hstep
        · rw [← hstep, slotPollTimeout_worker]
        · cases hstep
      | disconnected sock => exact hstep
      | setListener => exact hstep

end Freeing

/-! ## What a poll is for -/

def boundary (reads : Nat → ChanRead) (f : Fwd) : Bool :=
  match reads f.chan with
  | .nothing eno _ => eno = errorOutOfBoundary
  | .data _ _ => false

/-- The forwards that are read: up to the first one out of its boundary. -/
def readUpTo (reads : Nat → ChanRead) : List Fwd → List Fwd
  | [] => []
  | f :: fs => if boundary reads f then [f] else f :: readUpTo reads fs

def atEnd (reads : Nat → ChanRead) (f : Fwd) : Bool :=
  match reads f.chan with
  | .nothing eno eof => eof && (eno = errorEagain || eno = errorOutOfBoundary)
  | .data _ _ => false

/-- The forwards whose channel is found closed. -/
def foundClosed (reads : Nat → ChanRead) (fs : List Fwd) : List Fwd :=
  (readUpTo reads fs).filter (atEnd reads)

def relistens (p : Poll) : Prop :=
  p.accept = none ∧ p.eno = errorChannelUnknown ∧ p.relistened = true

instance (p : Poll) : Decidable (relistens p) := inferInstanceAs (Decidable (_ ∧ _))

/-- The forwards that a new listener has removed. -/
def droppedBy (p : Poll) (w : Worker) : List Fwd := if relistens p then w.mfwds else []

/-- The forwards when the reading begins: those that were open and the one accepted, or none after a new
listener. -/
def openAt (p : Poll) (w : Worker) : List Fwd :=
  (if relistens p then [] else w.mfwds) ++ p.accept.toList

/-- The table afterwards has the forwards that were not found closed, the channels of all the others
were freed, no channel twice, and nothing was written behind the end of the array. -/
structure Settles (frees : Nat → Bool) (s : Freeing) (p : Poll) (s' : Freeing) : Prop where
  overrun : s'.worker.overrun = false
  table : s'.worker.mfwds =
    (openAt p s.worker).filter fun f => f ∉ foundClosed p.reads (openAt p s.worker)
  freed : s'.freed = s.free frees ((droppedBy p s.worker).map Fwd.chan) ++
    (foundClosed p.reads (openAt p s.worker)).map Fwd.chan
  once : s'.freed.Nodup

def PollSettles (s : Freeing) (t : Turn) : Prop :=
  ∀ p, t.event = .poll p → p.accept.all (fresh s.worker) = true →
    ∃ s', s.step t = some s' ∧ Settles t.frees s p s'

/-- At most as many channels are found closed as the array has slots, and each of them has the
peer's `CLOSE` too. -/
def FewClosed (s : Freeing) (t : Turn) : Prop :=
  ∀ p, t.event = .poll p → p.accept.all (fresh s.worker) = true →
    (foundClosed p.reads (openAt p s.worker)).length ≤ 100 ∧
      ∀ f ∈ foundClosed p.reads (openAt p s.worker), t.frees f.chan = true

/-! ## The loop of a poll -/

theorem inv_eq (reads : Nat → ChanRead) (fs : List Fwd) :
    (pollLoop reads fs).2 = (foundClosed reads fs).map Fwd.chan := by
  induction fs with
  | nil => rfl
  | cons f fs ih =>
    unfold pollLoop foundClosed readUpTo boundary
    unfold foundClosed at ih
    cases hread : reads f.chan with
    | data b more => simp [atEnd, hread, ih]
    | nothing eno eof =>
      simp only
      by_cases hagain : eno = errorEagain
      · cases eof <;> simp [atEnd, hread, hagain, ih, errorEagain, errorOutOfBoundary]
      · by_cases hout : eno = errorOutOfBoundary
        · cases eof <;> simp [atEnd, hread, hout, errorEagain, errorOutOfBoundary]
        · simp [atEnd, hread, hagain, hout, ih]

theorem foundClosed_sublist (reads : Nat → ChanRead) (fs : List Fwd) :
    (foundClosed reads fs).Sublist fs := by
  have hread : (readUpTo reads fs).Sublist fs := by
    induction fs with
    | nil => exact List.Sublist.slnil
    | cons f fs ih =>
      unfold readUpTo
      split
      · exact List.singleton_sublist.mpr List.mem_cons_self
      · exact ih.cons_cons f
  exact List.filter_sublist.trans hread

/-! ## Removing forwards -/

/-- The channels of the open forwards are distinct, and none of them is freed; no channel is freed
twice. -/
structure Distinct (s : Freeing) : Prop where
  overrun : s.worker.overrun = false
  chans : (s.worker.mfwds.map Fwd.chan).Nodup
  once : s.freed.Nodup
  unfreed : ∀ f ∈ s.worker.mfwds, f.chan ∉ s.freed
  sub : ∀ f ∈ s.worker.mfwds, f ∈ s.worker.all
  known : ∀ c ∈ s.freed, ∃ f ∈ s.worker.all, f.chan = c

theorem distinct_start : Distinct {} :=
  ⟨rfl, List.nodup_nil, List.nodup_nil, by simp, by simp, by simp⟩

section Remove

variable {fs : List Fwd} (h : (fs.map Fwd.chan).Nodup)

include h

theorem chan_inj {f g : Fwd} (hf : f ∈ fs) (hg : g ∈ fs) (heq : f.chan = g.chan) : f = g :=
  List.inj_on_of_nodup_map h hf hg heq

theorem find_chan {f : Fwd} (hf : f ∈ fs) : (fs.find? fun g => g.chan = f.chan) = some f := by
  cases hfind : fs.find? fun g => g.chan = f.chan with
  | none => simpa using List.find?_eq_none.mp hfind f hf
  | some g =>
    have hchan : g.chan = f.chan := by simpa using List.find?_some hfind
    rw [chan_inj h (List.mem_of_find?_eq_some hfind) hf hchan]

theorem eraseP_chan (c : Nat) :
    (fs.eraseP fun f => f.chan = c) = fs.filter fun f => f.chan ≠ c := by
  induction fs with
  | nil => rfl
  | cons f fs ih =>
    rw [List.map_cons, List.nodup_cons] at h
    by_cases hc : f.chan = c
    · have hrest : ∀ g ∈ fs, g.chan ≠ c := fun g hg heq =>
        h.1 (List.mem_map.mpr ⟨g, hg, heq.trans hc.symm⟩)
      rw [List.eraseP_cons_of_pos (by simpa using hc), List.filter_cons_of_neg (by simpa using hc),
        List.filter_eq_self.mpr (by simpa using hrest)]
    · rw [List.eraseP_cons_of_neg (by simpa using hc), List.filter_cons_of_pos (by simpa using hc),
        ih h.2]

omit h in
theorem foldl_remove (frees : Nat → Bool) {s : Freeing} {chans : List Nat}
    (h : (s.worker.mfwds.map Fwd.chan).Nodup)
    (hchans : chans.Nodup) (hsub : chans ⊆ s.worker.mfwds.map Fwd.chan) :
    chans.foldl (Freeing.remove frees) s =
      ⟨{ s.worker with mfwds := s.worker.mfwds.filter fun f => f.chan ∉ chans }, s.free frees chans⟩ := by
  induction chans generalizing s with
  | nil => simp [Freeing.free]
  | cons c chans ih =>
    obtain ⟨f, hf, rfl⟩ := List.mem_map.mp (hsub List.mem_cons_self)
    rw [List.nodup_cons] at hchans
    have hremove : s.remove frees f.chan =
        ⟨{ s.worker with mfwds := s.worker.mfwds.filter fun g => g.chan ≠ f.chan },
          s.free frees [f.chan]⟩ := by
      unfold Freeing.remove removeForwardByChannel
      rw [find_chan h hf, eraseP_chan h]
      rfl
    rw [List.foldl_cons, hremove, ih]
    · have hfree : (s.free frees [f.chan]) ++ chans.filter frees = s.free frees (f.chan :: chans) := by
        rw [Freeing.free, Freeing.free, List.append_assoc, ← List.filter_append, List.singleton_append]
      rw [← hfree]
      simp only [Freeing.free, List.filter_filter, List.mem_cons, not_or, Bool.decide_and,
        Bool.and_comm, decide_not]
    · exact h.sublist (List.filter_sublist.map Fwd.chan)
    · exact hchans.2
    · intro c hc
      obtain ⟨g, hg, rfl⟩ := List.mem_map.mp (hsub (List.mem_cons_of_mem _ hc))
      refine List.mem_map.mpr ⟨g, List.mem_filter.mpr ⟨hg, ?_⟩, rfl⟩
      have hne : g.chan ≠ f.chan := fun heq => hchans.1 (heq ▸ hc)
      simpa using hne

end Remove

/-! ## One event -/

section Events

variable {s : Freeing} (h : Distinct s)

theorem accepted_table (frees : Nat → Bool) (p : Poll) (s : Freeing) :
    (s.accepted frees p).worker.mfwds = openAt p s.worker ∧
      (s.accepted frees p).freed = s.free frees ((droppedBy p s.worker).map Fwd.chan) := by
  unfold Freeing.accepted Forward.accepted openAt droppedBy
  cases haccept : p.accept with
  | some f => simp [relistens, haccept, Freeing.free]
  | none =>
    by_cases hnew : p.eno = errorChannelUnknown ∧ p.relistened = true
    · simp [relistens, haccept, hnew, Freeing.relisten, setListener]
    · simp [relistens, haccept, hnew, Freeing.free]

include h

theorem Distinct.relisten (frees : Nat → Bool) : Distinct (s.relisten frees) := by
  refine ⟨h.overrun, List.nodup_nil, ?_, by simp [Freeing.relisten, setListener],
    by simp [Freeing.relisten, setListener], ?_⟩
  · refine List.nodup_append.mpr ⟨h.once, h.chans.filter frees, ?_⟩
    rintro c hc c' hc' rfl
    obtain ⟨f, hf, rfl⟩ := List.mem_map.mp (List.mem_of_mem_filter hc')
    exact h.unfreed f hf hc
  · intro c hc
    rcases List.mem_append.mp hc with hc | hc
    · exact h.known c hc
    · obtain ⟨f, hf, rfl⟩ := List.mem_map.mp (List.mem_of_mem_filter hc)
      exact ⟨f, h.sub f hf, rfl⟩

theorem Distinct.accepted {p : Poll} (frees : Nat → Bool)
    (hfresh : p.accept.all (fresh s.worker) = true) : Distinct (s.accepted frees p) := by
  unfold Freeing.accepted Forward.accepted
  cases haccept : p.accept with
  | none =>
    simp only
    split
    · exact h.relisten frees
    · exact h
  | some f =>
    rw [haccept] at hfresh
    have hnew : ∀ g ∈ s.worker.all, g.chan ≠ f.chan := by
      intro g hg
      have hall : ∀ g ∈ s.worker.all, g.sock ≠ f.sock ∧ g.chan ≠ f.chan := by
        simpa [fresh] using hfresh
      exact (hall g hg).2
    refine ⟨h.overrun, ?_, h.once, ?_, ?_, ?_⟩
    · simp only [List.map_append, List.map_singleton]
      refine List.nodup_append.mpr ⟨h.chans, List.nodup_singleton _, ?_⟩
      rintro c hc c' hc' rfl
      obtain ⟨g, hg, hgc⟩ := List.mem_map.mp hc
      exact hnew g (h.sub g hg) (hgc.trans (List.mem_singleton.mp hc'))
    · intro g hg hfreed
      rcases List.mem_append.mp hg with hg | hg
      · exact h.unfreed g hg hfreed
      · obtain ⟨k, hk, hkc⟩ := h.known _ hfreed
        rw [List.mem_singleton.mp hg] at hkc
        exact hnew k hk hkc
    · intro g hg
      rcases List.mem_append.mp hg with hg | hg
      · exact List.mem_append_left _ (h.sub g hg)
      · exact List.mem_append_right _ hg
    · intro c hc
      obtain ⟨g, hg, hgc⟩ := h.known c hc
      exact ⟨g, List.mem_append_left _ hg, hgc⟩

theorem Distinct.removed (frees : Nat → Bool) {gone : List Fwd} (hgone : gone.Sublist s.worker.mfwds)
    {w : Worker} (hover : w.overrun = false) (hall : w.all = s.worker.all)
    (hmfwds : w.mfwds = s.worker.mfwds.filter fun f => f ∉ gone) :
    Distinct ⟨w, s.free frees (gone.map Fwd.chan)⟩ := by
  have hkept : w.mfwds.Sublist s.worker.mfwds := hmfwds ▸ List.filter_sublist
  refine ⟨hover, h.chans.sublist (hkept.map Fwd.chan), ?_, ?_, ?_, ?_⟩
  · refine List.nodup_append.mpr ⟨h.once, (h.chans.sublist (hgone.map Fwd.chan)).filter frees, ?_⟩
    rintro c hc c' hc' rfl
    obtain ⟨f, hf, rfl⟩ := List.mem_map.mp (List.mem_of_mem_filter hc')
    exact h.unfreed f (hgone.subset hf) hc
  · intro f hf hfreed
    have hf' := hkept.subset hf
    rcases List.mem_append.mp hfreed with hold | hnew
    · exact h.unfreed f hf' hold
    · obtain ⟨g, hg, hgf⟩ := List.mem_map.mp (List.mem_of_mem_filter hnew)
      obtain rfl := chan_inj h.chans (hgone.subset hg) hf' hgf
      rw [hmfwds] at hf
      simpa [hg] using (List.mem_filter.mp hf).2
  · intro f hf
    rw [hall]
    exact h.sub f (hkept.subset hf)
  · intro c hc
    rw [hall]
    rcases List.mem_append.mp hc with hc | hc
    · exact h.known c hc
    · obtain ⟨f, hf, rfl⟩ := List.mem_map.mp (List.mem_of_mem_filter hc)
      exact ⟨f, h.sub f (hgone.subset hf), rfl⟩

theorem filter_chan_eq {gone : List Fwd} (hgone : gone.Sublist s.worker.mfwds) :
    (s.worker.mfwds.filter fun f => f.chan ∉ gone.map Fwd.chan) =
      s.worker.mfwds.filter fun f => f ∉ gone := by
  apply List.filter_congr
  intro f hf
  rw [decide_eq_decide, not_iff_not]
  constructor
  · intro hmem
    obtain ⟨g, hg, hgf⟩ := List.mem_map.mp hmem
    rwa [← chan_inj h.chans (hgone.subset hg) hf hgf]
  · exact fun hmem => List.mem_map.mpr ⟨f, hmem, rfl⟩

theorem slotPollTimeout_few (frees : Nat → Bool) {p : Poll}
    (hfresh : p.accept.all (fresh s.worker) = true)
    (hfew : (foundClosed p.reads (openAt p s.worker)).length ≤ 100) :
    (s.slotPollTimeout frees p).worker.mfwds =
        ((openAt p s.worker).filter fun f => f ∉ foundClosed p.reads (openAt p s.worker)) ∧
      (s.slotPollTimeout frees p).freed =
        s.free frees ((droppedBy p s.worker).map Fwd.chan) ++
          ((foundClosed p.reads (openAt p s.worker)).map Fwd.chan).filter frees ∧
      Distinct (s.slotPollTimeout frees p) := by
  obtain ⟨hmfwds, hfreed⟩ := accepted_table frees p s
  have ha := h.accepted frees hfresh
  have hsub : (foundClosed p.reads (openAt p s.worker)).Sublist (s.accepted frees p).worker.mfwds := by
    rw [hmfwds]
    exact foundClosed_sublist _ _
  have hremove := @foldl_remove frees
    ⟨(s.accepted frees p).worker.log (relayTrace (pollLoop p.reads (openAt p s.worker)).1),
      (s.accepted frees p).freed⟩ _ ha.chans (ha.chans.sublist (hsub.map Fwd.chan)) (hsub.map Fwd.chan).subset
  simp only [Worker.log, filter_chan_eq ha hsub] at hremove
  have hpoll : s.slotPollTimeout frees p =
      ⟨{ (s.accepted frees p).worker.log (relayTrace (pollLoop p.reads (openAt p s.worker)).1) with
          mfwds := (s.accepted frees p).worker.mfwds.filter fun f =>
            f ∉ foundClosed p.reads (openAt p s.worker) },
        (s.accepted frees p).free frees ((foundClosed p.reads (openAt p s.worker)).map Fwd.chan)⟩ := by
    simp only [Freeing.slotPollTimeout, hmfwds, inv_eq, List.length_map]
    rw [if_neg (by omega), Worker.log, hremove, hmfwds]
    rfl
  rw [hpoll]
  refine ⟨?_, ?_, ha.removed frees hsub ha.overrun rfl rfl⟩
  · simp only [hmfwds]
  · simp only [Freeing.free, hfreed]

omit h in
theorem slotPollTimeout_many {frees : Nat → Bool} {p : Poll}
    (hmany : 100 < (foundClosed p.reads (openAt p s.worker)).length) :
    (s.slotPollTimeout frees p).worker.overrun = true := by
  simp only [Freeing.slotPollTimeout, inv_eq, List.length_map, (accepted_table frees p s).1]
  rw [if_pos hmany]

theorem step_poll {frees : Nat → Bool} {p : Poll} (hfresh : p.accept.all (fresh s.worker) = true) :
    s.step ⟨.poll p, frees⟩ = some (s.slotPollTimeout frees p) := by
  simp only [Freeing.step, Forward.step, h.overrun, Bool.false_eq_true, if_false, hfresh, if_true,
    Option.map_some]

theorem pollSettles_iff (t : Turn) : PollSettles s t ↔ FewClosed s t := by
  obtain ⟨e, frees⟩ := t
  constructor
  · rintro hsettles p rfl hfresh
    obtain ⟨s', hstep, hs'⟩ := hsettles p rfl hfresh
    rw [step_poll h hfresh] at hstep
    obtain rfl := Option.some.inj hstep
    have hfew : (foundClosed p.reads (openAt p s.worker)).length ≤ 100 := by
      by_contra hmany
      have hover := hs'.overrun
      rw [slotPollTimeout_many (by omega)] at hover
      cases hover
    refine ⟨hfew, fun f hf => ?_⟩
    -- A channel that is not freed now is in no table any more.
    have hfreed := (slotPollTimeout_few h _ hfresh hfew).2.1.symm.trans hs'.freed
    have hall := List.filter_eq_self.mp (List.append_cancel_left hfreed)
    exact hall f.chan (List.mem_map_of_mem hf)
  · rintro hfew p rfl hfresh
    obtain ⟨hlen, hfrees⟩ := hfew p rfl hfresh
    obtain ⟨htable, hfreed, hdistinct⟩ := slotPollTimeout_few h frees hfresh hlen
    refine ⟨_, step_poll h hfresh, hdistinct.overrun, htable, ?_, hdistinct.once⟩
    rw [hfreed, List.filter_eq_self.mpr (List.forall_mem_map.mpr hfrees)]

theorem Distinct.disconnected (frees : Nat → Bool) (sock : Nat) :
    Distinct (s.slotForwardDestDisconnected frees sock) := by
  cases hfind : s.worker.mfwds.find? fun f => f.sock = sock with
  | none =>
    have hnone : ∀ f ∈ s.worker.mfwds, ¬ f.sock = sock := by simpa using hfind
    have hsame : s.slotForwardDestDisconnected frees sock = s := by
      unfold Freeing.slotForwardDestDisconnected Forward.slotForwardDestDisconnected
      rw [hfind, List.eraseP_of_forall_not (by simpa using hnone)]
      simp [Freeing.free]
    rw [hsame]
    exact h
  | some f =>
    have hf := List.mem_of_find?_eq_some hfind
    have hsock : f.sock = sock := by simpa using List.find?_some hfind
    have hnd : s.worker.mfwds.Nodup := h.chans.of_map _
    have hremoved := h.removed frees (List.singleton_sublist.mpr hf)
      (w := Forward.slotForwardDestDisconnected sock s.worker) h.overrun rfl ?_
    · have hsame : s.slotForwardDestDisconnected frees sock =
          ⟨Forward.slotForwardDestDisconnected sock s.worker, s.free frees ([f].map Fwd.chan)⟩ := by
        unfold Freeing.slotForwardDestDisconnected
        rw [hfind]
        rfl
      rw [hsame]
      exact hremoved
    · obtain ⟨-, before, after, hsplit, hbefore⟩ := List.find?_eq_some_iff_append.mp hfind
      have hpass : ∀ g ∈ before, ¬ g.sock = sock := by simpa using hbefore
      unfold Forward.slotForwardDestDisconnected
      rw [hsplit] at hnd ⊢
      have hfresh : f ∉ before ∧ f ∉ after := by
        rw [List.nodup_append, List.nodup_cons] at hnd
        exact ⟨fun hmem => hnd.2.2 f hmem f List.mem_cons_self rfl, hnd.2.1.1⟩
      rw [List.eraseP_append_right _ (by simpa using hpass),
        List.eraseP_cons_of_pos (by simpa using hsock), List.filter_append,
        List.filter_cons_of_neg (by simp), List.filter_eq_self.mpr, List.filter_eq_self.mpr]
      · intro g hg
        have hne : g ≠ f := fun heq => hfresh.2 (heq ▸ hg)
        simpa using hne
      · intro g hg
        have hne : g ≠ f := fun heq => hfresh.1 (heq ▸ hg)
        simpa using hne

theorem Distinct.step {t : Turn} {s' : Freeing} (hfew : FewClosed s t) (hstep : s.step t = some s') :
    Distinct s' := by
  obtain ⟨e, frees⟩ := t
  obtain ⟨w, hw, rfl⟩ := Option.map_eq_some_iff.mp hstep
  cases e with
  | readyRead sock chunk writes =>
    obtain ⟨-, ⟨g, -, chunk, writes, -, rfl⟩ | ⟨p, he, -⟩ | ⟨fs, -, he, -⟩⟩ := step_cases hw
    · exact ⟨h.overrun, h.chans, h.once, h.unfreed, h.sub, h.known⟩
    · cases he
    · rcases he with ⟨sock', he⟩ | he <;> cases he
  | poll p =>
    have hfresh : p.accept.all (fresh s.worker) = true := by
      simp only [Forward.step, h.overrun, Bool.false_eq_true, if_false] at hw
      by_contra hnot
      rw [if_neg hnot] at hw
      cases hw
    exact (slotPollTimeout_few h _ hfresh (hfew p rfl hfresh).1).2.2
  | disconnected sock => exact h.disconnected frees sock
  | setListener => exact h.relisten frees

end Events

/-- **When the table loses and keeps the right forwards**: no poll finds more than 100 channels
closed, or one closed whose peer has not sent its `CLOSE` yet. -/
theorem polls_settle (ts : List Turn) :
    Meets Freeing.step PollSettles {} ts ↔ Meets Freeing.step FewClosed {} ts :=
  meets_congr Distinct (fun _ _ _ h hfew hstep => h.step hfew hstep) (fun _ t h => pollSettles_iff h t)
    distinct_start ts

/-- A connection comes in, and nothing else happens. -/
def comesIn (i : Nat) : Turn :=
  ⟨.poll ⟨some ⟨i, i⟩, 0, false, fun _ => .nothing errorEagain false⟩, fun _ => false⟩

/-- All channels are at their end at once. -/
def allClosed : Poll := ⟨none, errorEagain, false, fun _ => .nothing errorEagain true⟩

theorem pollLoop_quiet (fs : List Fwd) :
    pollLoop (fun _ => .nothing errorEagain false) fs = ([], []) := by
  induction fs with
  | nil => rfl
  | cons f fs ih => simp [pollLoop, ih]

theorem foundClosed_allClosed (fs : List Fwd) : foundClosed allClosed.reads fs = fs := by
  induction fs with
  | nil => rfl
  | cons f fs ih =>
    unfold foundClosed at ih
    simp [foundClosed, readUpTo, boundary, atEnd, allClosed, errorEagain, errorOutOfBoundary] at ih ⊢
    exact ih

theorem run_comesIn (n : Nat) :
    ∃ s, run Freeing.step {} ((List.range n).map comesIn) = some s ∧ s.freed = [] ∧
      s.worker.overrun = false ∧ s.worker.all = s.worker.mfwds ∧
      s.worker.mfwds = (List.range n).map fun i => ⟨i, i⟩ := by
  induction n with
  | zero => exact ⟨{}, rfl, rfl, rfl, rfl, rfl⟩
  | succ n ih =>
    obtain ⟨s, hrun, hfreed, hover, hall, hmfwds⟩ := ih
    have hfresh : fresh s.worker ⟨n, n⟩ = true := by
      simp only [fresh, hall, hmfwds, List.all_eq_true, List.mem_map, List.mem_range]
      rintro g ⟨i, hi, rfl⟩
      simp only [ne_eq, and_self, decide_eq_true_eq]
      omega
    refine ⟨⟨{ s.worker with
      mfwds := s.worker.mfwds ++ [⟨n, n⟩], all := s.worker.all ++ [⟨n, n⟩] }, s.freed⟩, ?_, hfreed,
      hover, ?_, ?_⟩
    · rw [List.range_succ, List.map_append]
      refine run_append.mpr ⟨s, hrun, run_cons.mpr ⟨_, ?_, rfl⟩⟩
      simp [Freeing.step, Forward.step, comesIn, hover, hfresh, Freeing.slotPollTimeout,
        Freeing.accepted, Forward.accepted, pollLoop_quiet, Worker.log, relayTrace]
    · simp only [hall]
    · simp only [hmfwds, List.range_succ, List.map_append, List.map_singleton]

theorem few_of_all_closed {n : Nat} {frees : Nat → Bool}
    (h : Meets Freeing.step PollSettles {}
      ((List.range n).map comesIn ++ [⟨.poll allClosed, frees⟩])) :
    n ≤ 100 ∧ ∀ i < n, frees i = true := by
  obtain ⟨s, hrun, hfreed, hover, hall, hmfwds⟩ := run_comesIn n
  have hdistinct : Distinct s := by
    refine ⟨hover, ?_, hfreed ▸ List.nodup_nil, by simp [hfreed], by simp [hall], by simp [hfreed]⟩
    simpa [hmfwds, Function.comp_def] using List.nodup_range
  obtain ⟨hlen, hfrees⟩ :=
    (pollSettles_iff hdistinct ⟨.poll allClosed, frees⟩).mp (meets_append h hrun).2.1 _ rfl rfl
  have hopen : openAt allClosed s.worker = s.worker.mfwds := by
    simp [openAt, allClosed, relistens, errorEagain, errorChannelUnknown]
  rw [foundClosed_allClosed, hopen, hmfwds] at hlen hfrees
  refine ⟨by simpa using hlen, fun i hi => ?_⟩
  exact hfrees ⟨i, i⟩ (List.mem_map.mpr ⟨i, List.mem_range.mpr hi, rfl⟩)

theorem overrun_by_101 :
    ¬ Meets Freeing.step PollSettles {}
      ((List.range 101).map comesIn ++ [⟨.poll allClosed, fun _ => true⟩]) ∧
    ¬ Meets Freeing.step PollSettles {} [comesIn 0, ⟨.poll allClosed, fun _ => false⟩] := by
  -- With 101 connections the array is overrun. One channel whose peer has sent its `EOF`, but not
  -- its `CLOSE`, is never freed.
  refine ⟨fun h => ?_, fun h => ?_⟩
  · exact absurd (few_of_all_closed h).1 (by decide)
  · exact absurd ((few_of_all_closed (n := 1) h).2 0 Nat.one_pos) Bool.false_ne_true

end NullFxp.Forward
