import Mathlib.Data.List.Nodup
import NullFxp.Forward.Daemon

/-!
# Which forward a stop is for

An item of the combo box belongs to the entry that it was added with, but only its text is kept. A stop
looks for the first entry with that text, among those that were stopped before as well.
-/

open Runs

namespace NullFxp.Forward.Daemon

/-! ## The entry of an item -/

/-- The daemon, and for each item of the combo box the place of its entry. -/
structure Tracked where
  state : State := {}
  owners : List Nat := []

def Tracked.ownersAfter (t : Tracked) : Event → List Nat
  | .newForward .. => t.owners ++ [t.state.forwardList.length]
  | .stop => t.state.current.elim t.owners t.owners.eraseIdx
  | _ => t.owners

def Tracked.step (t : Tracked) (ev : Event) : Option Tracked :=
  (Daemon.step t.state ev).map fun s => ⟨s, t.ownersAfter ev⟩

/-- What a stop is for: the entry of the current item, which is not stopped yet, is stopped and no other,
and the item is removed. -/
def StopsSelected (t : Tracked) : Prop :=
  ∃ i k e s, t.state.current = some i ∧ t.owners[i]? = some k ∧ t.state.forwardList[k]? = some e ∧
    e.userCanceled = false ∧ slotStopPortForward t.state = some s ∧
    s.forwardList = t.state.forwardList.modify k stopped ∧ s.items = t.state.items.eraseIdx i

/-- An item is current, and no entry before its own has the same text. -/
def FirstOfText (t : Tracked) : Prop :=
  ∃ i k e, t.state.current = some i ∧ t.owners[i]? = some k ∧ t.state.forwardList[k]? = some e ∧
    ∀ j d, j < k → t.state.forwardList[j]? = some d → d.digest ≠ e.digest

/-! ## The items and their entries -/

/-- Every item has the text of its own entry, which runs. -/
structure Tracks (t : Tracked) : Prop where
  length : t.owners.length = t.state.items.length
  nodup : t.owners.Nodup
  owned : ∀ (i k : Nat), t.owners[i]? = some k → ∃ e, t.state.forwardList[k]? = some e ∧
    t.state.items[i]? = some e.digest ∧ e.userCanceled = false

theorem happen_digest {e e' : Entry} {hap : Happening} (hstep : e.happen hap = some e') :
    e'.digest = e.digest := by
  cases hap with
  | started which | finished which | failedToStart which =>
    obtain ⟨-, rfl⟩ := Option.ite_some_none_eq_some.mp hstep
    cases which <;> grind [slotProcStarted, slotProcFinished, Entry.setProc, Entry.digest]
  | output which bytes =>
    obtain ⟨-, rfl⟩ := Option.ite_some_none_eq_some.mp hstep
    cases which <;> grind [slotReadyReadStandardOutput, Entry.digest]
  | timeout pid =>
    obtain ⟨-, rfl⟩ := Option.ite_some_none_eq_some.mp hstep
    grind [slotTimeOut, slotStartForward, Entry.digest]

theorem tracks_start : Tracks {} := ⟨rfl, List.nodup_nil, by simp⟩

section Steps

variable {t : Tracked} (h : Tracks t)

include h

theorem Tracks.owner_lt {i k : Nat} (hi : t.owners[i]? = some k) : k < t.state.forwardList.length := by
  obtain ⟨e, he, -⟩ := h.owned i k hi
  exact (List.getElem?_eq_some_iff.mp he).1

theorem Tracks.owner_inj {i j k : Nat} (hi : t.owners[i]? = some k) (hj : t.owners[j]? = some k) :
    i = j := by
  obtain ⟨hil, hik⟩ := List.getElem?_eq_some_iff.mp hi
  obtain ⟨hjl, hjk⟩ := List.getElem?_eq_some_iff.mp hj
  exact h.nodup.getElem_inj_iff.mp (hik.trans hjk.symm)

theorem Tracks.newForward (fl : Entry) (pid : Nat) (hfl : fl.userCanceled = false) :
    Tracks ⟨slotNewForward fl pid t.state, t.owners ++ [t.state.forwardList.length]⟩ := by
  refine ⟨?_, ?_, ?_⟩
  · simp [slotNewForward, h.length]
  · refine List.nodup_append.mpr ⟨h.nodup, List.nodup_singleton _, ?_⟩
    intro k hk k' hk' heq
    obtain ⟨i, hi⟩ := List.getElem?_of_mem hk
    have hlt := h.owner_lt hi
    rw [heq, List.mem_singleton.mp hk'] at hlt
    exact lt_irrefl _ hlt
  · intro i k hi
    simp only [slotNewForward]
    rcases Nat.lt_or_ge i t.owners.length with hlt | hge
    · rw [List.getElem?_append_left hlt] at hi
      obtain ⟨e, he, hitem, hrun⟩ := h.owned i k hi
      refine ⟨e, ?_, ?_, hrun⟩
      · rw [List.getElem?_append_left (h.owner_lt hi), he]
      · rw [List.getElem?_append_left (by rw [← h.length]; exact hlt), hitem]
    · have hlast : i = t.owners.length := by
        have := (List.getElem?_eq_some_iff.mp hi).1
        simp at this
        omega
      rw [hlast, List.getElem?_concat_length] at hi
      obtain rfl := Option.some.inj hi
      refine ⟨slotStartForward pid fl, List.getElem?_concat_length .., ?_, hfl⟩
      rw [hlast, h.length, List.getElem?_concat_length]
      rfl

theorem Tracks.stop {i k : Nat} (hi : t.owners[i]? = some k) (s : State)
    (hlist : s.forwardList = t.state.forwardList.modify k stopped)
    (hitems : s.items = t.state.items.eraseIdx i) : Tracks ⟨s, t.owners.eraseIdx i⟩ := by
  have hlt := (List.getElem?_eq_some_iff.mp hi).1
  have hlen := h.length
  refine ⟨?_, h.nodup.eraseIdx i, ?_⟩
  · simp only [hitems]
    rw [List.length_eraseIdx_of_lt hlt, List.length_eraseIdx_of_lt (by omega), hlen]
  · intro j k' hj
    -- the place of the item before the removal
    obtain ⟨j', hj', hji, hitem⟩ : ∃ j', t.owners[j']? = some k' ∧ j' ≠ i ∧
        s.items[j]? = t.state.items[j']? := by
      rw [hitems, List.getElem?_eraseIdx]
      rw [List.getElem?_eraseIdx] at hj
      split at hj
      · exact ⟨j, hj, by omega, if_pos (by assumption)⟩
      · exact ⟨j + 1, hj, by omega, if_neg (by assumption)⟩
    have hk : k ≠ k' := fun heq => hji (h.owner_inj hj' (heq ▸ hi))
    obtain ⟨e, he, hdigest, hrun⟩ := h.owned j' k' hj'
    refine ⟨e, ?_, hitem.trans hdigest, hrun⟩
    show s.forwardList[k']? = some e
    rw [hlist, List.getElem?_modify_ne _ _ hk, he]

theorem Tracks.entry {j : Nat} {d d' : Entry} {hap : Happening} (hd : t.state.forwardList[j]? = some d)
    (hhap : d.happen hap = some d') :
    Tracks ⟨{ t.state with forwardList := t.state.forwardList.set j d' }, t.owners⟩ := by
  refine ⟨h.length, h.nodup, ?_⟩
  intro i k hi
  obtain ⟨e, he, hitem, hrun⟩ := h.owned i k hi
  by_cases hjk : j = k
  · subst hjk
    obtain rfl := Option.some.inj (hd.symm.trans he)
    refine ⟨d', List.getElem?_set_self (List.getElem?_eq_some_iff.mp hd).1, ?_, ?_⟩
    · rw [hitem, happen_digest hhap]
    · rw [happen_userCanceled hhap, hrun]
  · exact ⟨e, by rw [List.getElem?_set_ne hjk, he], hitem, hrun⟩

/-! ## Stops -/

theorem Tracks.currentText {i k : Nat} {e : Entry} (hcur : t.state.current = some i)
    (hi : t.owners[i]? = some k) (he : t.state.forwardList[k]? = some e) :
    t.state.currentText = e.digest := by
  obtain ⟨e', he', hitem, -⟩ := h.owned i k hi
  obtain rfl := Option.some.inj (he.symm.trans he')
  rw [State.currentText, hcur, Option.bind_some, hitem, Option.getD_some]

theorem found_iff {i k : Nat} {e : Entry} (hcur : t.state.current = some i)
    (hi : t.owners[i]? = some k) (he : t.state.forwardList[k]? = some e) :
    getForwardListByServInfo t.state = some k ↔
      ∀ j d, j < k → t.state.forwardList[j]? = some d → d.digest ≠ e.digest := by
  obtain ⟨hk, hke⟩ := List.getElem?_eq_some_iff.mp he
  unfold getForwardListByServInfo
  rw [h.currentText hcur hi he, List.findIdx?_eq_some_iff_getElem]
  constructor
  · rintro ⟨_, _, hbefore⟩ j d hj hd
    obtain ⟨hjl, rfl⟩ := List.getElem?_eq_some_iff.mp hd
    simpa using hbefore j hj
  · intro hbefore
    refine ⟨hk, by simp [hke], fun j hj => ?_⟩
    simpa using hbefore j _ hj (List.getElem?_eq_getElem (by omega))

theorem stopsSelected_iff : StopsSelected t ↔ FirstOfText t := by
  constructor
  · rintro ⟨i, k, e, s, hcur, hi, he, hrun, hstop, hlist, -⟩
    refine ⟨i, k, e, hcur, hi, he, (found_iff h hcur hi he).mp ?_⟩
    obtain ⟨k', hfound, rfl⟩ := Option.map_eq_some_iff.mp hstop
    have hactual : (removeCurrent { t.state with
        forwardList := t.state.forwardList.modify k' stopped }).forwardList =
        t.state.forwardList.modify k' stopped := by
      unfold removeCurrent
      split <;> rfl
    rw [hactual] at hlist
    -- the entry of the item has changed, so it is the one that was found
    by_contra hne
    have hkk : k' ≠ k := fun heq => hne (heq ▸ hfound)
    have hsame := congrArg (fun l => l[k]?) hlist
    simp only [List.getElem?_modify_ne _ _ hkk, List.getElem?_modify_eq, he] at hsame
    obtain heq := Option.some.inj hsame
    rw [heq] at hrun
    cases hrun
  · rintro ⟨i, k, e, hcur, hi, he, hfirst⟩
    obtain ⟨e', he', -, hrun⟩ := h.owned i k hi
    obtain rfl := Option.some.inj (he.symm.trans he')
    refine ⟨i, k, e,
      removeCurrent { t.state with forwardList := t.state.forwardList.modify k stopped }, hcur, hi, he,
      hrun, ?_, ?_⟩
    · rw [slotStopPortForward, (found_iff h hcur hi he).mpr hfirst, Option.map_some]
    · simp [removeCurrent, hcur]

theorem Tracks.step {ev : Event} {t' : Tracked} (hev : ev = .stop → FirstOfText t)
    (hstep : t.step ev = some t') : Tracks t' := by
  obtain ⟨s, hs, rfl⟩ := Option.map_eq_some_iff.mp hstep
  cases ev with
  | newForward host userName passwd remoteListenPort forwardLocalPort pid =>
    obtain rfl := Option.some.inj hs
    exact h.newForward _ pid rfl
  | select i =>
    obtain ⟨-, rfl⟩ := Option.ite_some_none_eq_some.mp hs
    exact ⟨h.length, h.nodup, h.owned⟩
  | stop =>
    obtain ⟨i, k, e, s', hcur, hi, he, -, hstop, hlist, hitems⟩ :=
      (stopsSelected_iff h).mpr (hev rfl)
    obtain rfl := Option.some.inj (hstop.symm.trans hs)
    have := h.stop hi s' hlist hitems
    rwa [Tracked.ownersAfter, hcur]
  | entry i hap =>
    obtain ⟨d, hd, hs⟩ := Option.bind_eq_some_iff.mp hs
    obtain ⟨d', hd', rfl⟩ := Option.map_eq_some_iff.mp hs
    exact h.entry hd hd'

end Steps

/-- **When every stop acts on the selected forward**: an item is selected, and no entry that was added
before its own, stopped or not, has the same text. -/
theorem stops_selected (es : List Event) :
    Meets Tracked.step (fun t ev => ev = .stop → StopsSelected t) {} es ↔
      Meets Tracked.step (fun t ev => ev = .stop → FirstOfText t) {} es := by
  refine meets_congr Tracks (fun t ev t' h hev hstep => h.step hev hstep) ?_ tracks_start es
  intro t ev h
  rw [stopsSelected_iff h]

/-- A forward that is stopped and added again, and one whose five texts are those of another with the
cuts in other places. -/
def againEvents : List Event :=
  [.newForward "h".toList "u".toList "p".toList "8000".toList "22".toList 1, .stop,
    .newForward "h".toList "u".toList "p".toList "8000".toList "22".toList 2, .stop]

def otherCuts : List Event :=
  [.newForward "h".toList "u".toList "p".toList "8000".toList "22".toList 1,
    .newForward "hu".toList "p".toList [] "800".toList "022".toList 2, .select 1, .stop]

theorem stop_misses :
    ((run Tracked.step {} againEvents).map fun t =>
      (t.state.forwardList.map Entry.userCanceled, t.state.items)) = some ([true, false], []) ∧
    ((run Tracked.step {} otherCuts).map fun t =>
      t.state.forwardList.map Entry.userCanceled) = some [true, false] ∧
    ¬ Meets Tracked.step (fun t ev => ev = .stop → StopsSelected t) {} againEvents ∧
    ¬ Meets Tracked.step (fun t ev => ev = .stop → StopsSelected t) {} otherCuts := by
  -- Both times the second forward is selected, and goes on.
  refine ⟨by decide, by decide, ?_, ?_⟩
  · rintro ⟨-, h⟩
    obtain ⟨-, h⟩ := h _ rfl
    obtain ⟨-, h⟩ := h _ rfl
    obtain ⟨i, k, e, s, hcur, hi, -, -, hstop, hlist, -⟩ := (h _ rfl).1 rfl
    obtain rfl : 0 = i := Option.some.inj hcur
    obtain rfl : 1 = k := Option.some.inj hi
    obtain rfl := Option.some.inj hstop
    have hmarks := congrArg (List.map Entry.userCanceled) hlist
    cases hmarks
  · rintro ⟨-, h⟩
    obtain ⟨-, h⟩ := h _ rfl
    obtain ⟨-, h⟩ := h _ rfl
    obtain ⟨i, k, e, s, hcur, hi, -, -, hstop, hlist, -⟩ := (h _ rfl).1 rfl
    obtain rfl : 1 = i := Option.some.inj hcur
    obtain rfl : 1 = k := Option.some.inj hi
    obtain rfl := Option.some.inj hstop
    have hmarks := congrArg (List.map Entry.userCanceled) hlist
    cases hmarks

end NullFxp.Forward.Daemon
