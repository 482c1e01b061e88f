import NullFxp.Forward.Manager

/-!
# The workers of the forward manager

Entries and workers belong together: every entry waits for its connector or has a connection and a
worker, and a worker that can still call a slot has an entry.
-/

open Function

namespace NullFxp.Forward.Manager

/-! ## Look-ups -/

/-- The worker has an entry, and the connection of the entry has not been deleted. -/
def Knows (s : State) (w : Nat) : Prop :=
  ∃ name st c, (name, st) ∈ s.mfwdstate ∧ st.worker = some w ∧ st.conn = some c ∧ c ∉ s.deleted

/-- The slot finds the worker that sent the signal. -/
def Found (s : State) : Event → Prop
  | .listenError w _ _ | .finished w _ => Knows s w
  | _ => True

/-- The port is refused because something listens on it. -/
def Listen.occupied : Listen → Bool
  | .listening => false
  | .refused srcPort eno netstat => fullRestart srcPort eno netstat ≠ some false

/-- The listener cannot be cancelled, or the port is occupied. -/
def Restarts (s : State) : Event → Prop
  | .listenError w rn listen =>
    ∀ p ∈ s.ofWorker w, forwardCancel p.2.lsner rn ≠ 0 ∨ listen.occupied = true
  | _ => True

instance (s : State) : ∀ ev, Decidable (Restarts s ev)
  | .listenError _ _ _ => inferInstanceAs (Decidable (∀ p ∈ _, _))
  | .click _ _ | .connectFinished _ _ | .ends _ | .finished _ _ => .isTrue trivial

theorem ofConnector_some {s : State} {c : Nat} {p : QString × ForwardState}
    (h : s.ofConnector c = some p) : p ∈ s.mfwdstate ∧ p.2.connector = some c :=
  ⟨List.mem_of_find?_eq_some h, by simpa using List.find?_some h⟩

theorem ofWorker_some {s : State} {w : Nat} {p : QString × ForwardState}
    (h : s.ofWorker w = some p) : p ∈ s.mfwdstate ∧ p.2.worker = some w :=
  ⟨List.mem_reverse.mp (List.mem_of_find?_eq_some h), by simpa using List.find?_some h⟩

theorem exists_ofWorker {s : State} {w : Nat} {p : QString × ForwardState} (hp : p ∈ s.mfwdstate)
    (hw : p.2.worker = some w) : ∃ q, s.ofWorker w = some q := by
  rw [← Option.isSome_iff_exists, State.ofWorker, List.find?_isSome]
  exact ⟨p, List.mem_reverse.mpr hp, by simpa using hw⟩

/-! ## The table -/

def ForwardState.number (st : ForwardState) : Option Nat := st.connector <|> st.conn

/-- An entry waits for its connector, or it has a connection and a worker. -/
def Phase (s : State) (c : Nat) (st : ForwardState) : Prop :=
  c < s.made ∧ c ∉ s.deleted ∧
    ((st.connector = some c ∧ st.conn = none ∧ st.worker = none ∧ c ∈ s.connecting) ∨
      (st.connector = none ∧ st.conn = some c ∧ st.worker = some c ∧ c ∉ s.connecting))

structure Table (s : State) : Prop where
  names : (s.mfwdstate.map Prod.fst).Nodup
  numbers : (s.mfwdstate.map fun p => p.2.number).Nodup
  phase : ∀ p ∈ s.mfwdstate, ∃ c, Phase s c p.2
  connecting : ∀ c ∈ s.connecting, ∃ p ∈ s.mfwdstate, p.2.connector = some c
  connecting_nodup : s.connecting.Nodup
  deleted_nodup : s.deleted.Nodup
  deleted_lt : ∀ c ∈ s.deleted, c < s.made

theorem Phase.number_eq {s : State} {c : Nat} {st : ForwardState} (h : Phase s c st) :
    st.number = some c := by
  obtain ⟨-, -, ⟨hc, -⟩ | ⟨hnone, hc, -⟩⟩ := h
  · simp [ForwardState.number, hc]
  · simp [ForwardState.number, hnone, hc]

theorem Phase.of_worker {s : State} {c w : Nat} {st : ForwardState} (h : Phase s c st)
    (hw : st.worker = some w) : c = w ∧ st.conn = some w ∧ w ∉ s.deleted ∧ w ∉ s.connecting := by
  obtain ⟨-, hdel, ⟨-, -, hnone, -⟩ | ⟨-, hconn, hworker, hnot⟩⟩ := h
  · rw [hnone] at hw
    cases hw
  · obtain rfl := Option.some.inj (hworker.symm.trans hw)
    exact ⟨rfl, hconn, hdel, hnot⟩

theorem Phase.of_connector {s : State} {c d : Nat} {st : ForwardState} (h : Phase s c st)
    (hd : st.connector = some d) : c = d ∧ st.worker = none := by
  obtain ⟨-, -, ⟨hconnector, -, hworker, -⟩ | ⟨hnone, -⟩⟩ := h
  · exact ⟨Option.some.inj (hconnector.symm.trans hd), hworker⟩
  · rw [hnone] at hd
    cases hd

theorem Table.number_lt {s : State} (h : Table s) {p : QString × ForwardState} {c : Nat}
    (hp : p ∈ s.mfwdstate) (hc : p.2.number = some c) : c < s.made := by
  obtain ⟨d, hphase⟩ := h.phase p hp
  obtain rfl := Option.some.inj (hphase.number_eq.symm.trans hc)
  exact hphase.1

theorem Table.connecting_lt {s : State} (h : Table s) {c : Nat} (hc : c ∈ s.connecting) :
    c < s.made := by
  obtain ⟨p, hp, hpc⟩ := h.connecting c hc
  obtain ⟨d, hphase⟩ := h.phase p hp
  obtain rfl := (hphase.of_connector hpc).1
  exact hphase.1

theorem Table.eq_of_number {s : State} (h : Table s) {p q : QString × ForwardState}
    (hp : p ∈ s.mfwdstate) (hq : q ∈ s.mfwdstate) (heq : p.2.number = q.2.number) : p = q :=
  List.inj_on_of_nodup_map h.numbers hp hq heq

theorem Table.setWorker {s : State} (h : Table s) (worker : Nat → Worker) :
    Table { s with worker := worker } :=
  ⟨h.names, h.numbers, h.phase, h.connecting, h.connecting_nodup, h.deleted_nodup, h.deleted_lt⟩

theorem Table.crash {s : State} (h : Table s) : Table s.crash :=
  ⟨h.names, h.numbers, h.phase, h.connecting, h.connecting_nodup, h.deleted_nodup, h.deleted_lt⟩

/-- What a change of an entry leaves as it is. -/
def SameObjects (st st' : ForwardState) : Prop :=
  st'.connector = st.connector ∧ st'.conn = st.conn ∧ st'.worker = st.worker

theorem mem_modify_of_same {s : State} (name : QString) {f : ForwardState → ForwardState}
    (hf : ∀ st, SameObjects st (f st)) {p : QString × ForwardState} (hp : p ∈ s.mfwdstate) :
    ∃ q ∈ (s.modify name f).mfwdstate, q.1 = p.1 ∧ SameObjects p.2 q.2 := by
  by_cases hname : p.1 = name
  · refine ⟨(name, f p.2), Assoc.mem_modify.mpr (.inr ⟨p.2, ?_, rfl⟩), hname.symm, hf p.2⟩
    rwa [← hname]
  · exact ⟨p, Assoc.mem_modify.mpr (.inl ⟨hp, hname⟩), rfl, rfl, rfl, rfl⟩

theorem Table.modify {s : State} (h : Table s) (name : QString) {f : ForwardState → ForwardState}
    (hf : ∀ st, SameObjects st (f st)) : Table (s.modify name f) := by
  refine ⟨?_, ?_, ?_, ?_, h.connecting_nodup, h.deleted_nodup, h.deleted_lt⟩
  · rw [State.modify, Assoc.map_modify]
    · exact h.names
    · exact fun _ _ => rfl
  · rw [State.modify, Assoc.map_modify]
    · exact h.numbers
    · intro st _
      obtain ⟨hconnector, hconn, -⟩ := hf st
      simp only [ForwardState.number, hconnector, hconn]
  · intro p hp
    rcases Assoc.mem_modify.mp hp with ⟨hp, -⟩ | ⟨st, hst, rfl⟩
    · exact h.phase p hp
    · obtain ⟨hconnector, hconn, hworker⟩ := hf st
      obtain ⟨c, hphase⟩ := h.phase _ hst
      refine ⟨c, ?_⟩
      unfold Phase at hphase ⊢
      rw [hconnector, hconn, hworker]
      exact hphase
  · intro c hc
    obtain ⟨p, hp, hpc⟩ := h.connecting c hc
    obtain ⟨q, hq, -, hconnector, -⟩ := mem_modify_of_same name hf hp
    exact ⟨q, hq, hconnector.trans hpc⟩

theorem Table.start {s : State} (h : Table s) {name : QString} (hname : s.contains name = false) :
    Table { s with
      mfwdstate := s.mfwdstate ++ [(name, { connector := some s.made })]
      made := s.made + 1
      connecting := s.connecting ++ [s.made] } := by
  refine ⟨?_, ?_, ?_, ?_, ?_, h.deleted_nodup, fun c hc => Nat.lt_succ_of_lt (h.deleted_lt c hc)⟩
  · simp only [State.contains, List.any_eq_false, decide_eq_true_eq] at hname
    rw [List.map_append, List.map_singleton, ← List.concat_eq_append, List.nodup_concat]
    refine ⟨fun hmem => ?_, h.names⟩
    obtain ⟨p, hp, heq⟩ := List.mem_map.mp hmem
    exact hname p hp heq
  · rw [List.map_append, List.map_singleton, ← List.concat_eq_append, List.nodup_concat]
    refine ⟨fun hmem => ?_, h.numbers⟩
    obtain ⟨p, hp, heq⟩ := List.mem_map.mp hmem
    exact Nat.lt_irrefl _ (h.number_lt hp heq)
  · intro p hp
    rcases List.mem_append.mp hp with hp | hp
    · obtain ⟨c, hlt, hdel, hcase⟩ := h.phase p hp
      refine ⟨c, Nat.lt_succ_of_lt hlt, hdel, ?_⟩
      simp only [List.mem_append, List.mem_singleton]
      have hne : c ≠ s.made := by omega
      simpa [hne] using hcase
    · rw [List.mem_singleton.mp hp]
      refine ⟨s.made, Nat.lt_succ_self _, fun hdel => ?_, .inl ⟨rfl, rfl, rfl, by simp⟩⟩
      exact Nat.lt_irrefl _ (h.deleted_lt _ hdel)
  · intro c hc
    rcases List.mem_append.mp hc with hc | hc
    · obtain ⟨p, hp, hpc⟩ := h.connecting c hc
      exact ⟨p, List.mem_append_left _ hp, hpc⟩
    · rw [List.mem_singleton.mp hc]
      exact ⟨_, List.mem_append_right _ List.mem_cons_self, rfl⟩
  · change (s.connecting ++ [s.made]).Nodup
    rw [← List.concat_eq_append, List.nodup_concat]
    exact ⟨fun hmem => Nat.lt_irrefl _ (h.connecting_lt hmem), h.connecting_nodup⟩

theorem Table.number_ne {s : State} (h : Table s) {p q : QString × ForwardState} {c d : Nat}
    (hp : p ∈ s.mfwdstate) (hq : q ∈ s.mfwdstate) (hc : p.2.number = some c)
    (hd : q.2.number = some d) (hne : p.1 ≠ q.1) : c ≠ d := by
  rintro rfl
  exact hne (congrArg Prod.fst (h.eq_of_number hp hq (hc.trans hd.symm)))

theorem Table.connected {s : State} (h : Table s) {name : QString} {st : ForwardState} {c : Nat}
    (hmem : (name, st) ∈ s.mfwdstate) (hc : st.connector = some c) :
    Table { s.modify name (ForwardState.connected c) with
      connecting := s.connecting.erase c } := by
  obtain ⟨d, hphase⟩ := h.phase _ hmem
  obtain rfl := (hphase.of_connector hc).1
  have hone : ∀ st', (name, st') ∈ s.mfwdstate → st' = st :=
    fun st' hst' => Assoc.eq_of_mem h.names hst' hmem
  refine ⟨?_, ?_, ?_, ?_, h.connecting_nodup.erase d, h.deleted_nodup, h.deleted_lt⟩
  · rw [State.modify, Assoc.map_modify]
    · exact h.names
    · exact fun _ _ => rfl
  · rw [State.modify, Assoc.map_modify]
    · exact h.numbers
    · intro st' hst'
      rw [hone st' hst', hphase.number_eq]
      rfl
  · intro p hp
    rcases Assoc.mem_modify.mp hp with ⟨hp, hne⟩ | ⟨st', hst', rfl⟩
    · obtain ⟨e, hother⟩ := h.phase p hp
      have hed := h.number_ne hp hmem hother.number_eq hphase.number_eq hne
      refine ⟨e, hother.1, hother.2.1, ?_⟩
      simp only [h.connecting_nodup.mem_erase_iff]
      simpa [hed] using hother.2.2
    · refine ⟨d, hphase.1, hphase.2.1, .inr ⟨rfl, rfl, rfl, ?_⟩⟩
      simp [h.connecting_nodup.mem_erase_iff]
  · intro e he
    obtain ⟨hed, he⟩ := h.connecting_nodup.mem_erase_iff.mp he
    obtain ⟨p, hp, hpe⟩ := h.connecting e he
    refine ⟨p, Assoc.mem_modify.mpr (.inl ⟨hp, ?_⟩), hpe⟩
    intro hname
    obtain rfl : p.2 = st := hone _ (by rwa [← hname])
    exact hed (Option.some.inj (hpe.symm.trans hc))

theorem Table.drop {s : State} (h : Table s) {name : QString} {st : ForwardState} {c : Nat}
    (hmem : (name, st) ∈ s.mfwdstate) (hphase : Phase s c st) :
    Table { s.drop name c with connecting := s.connecting.erase c } := by
  have hother : ∀ p ∈ s.mfwdstate, p.1 ≠ name → ∀ d, p.2.number = some d → d ≠ c :=
    fun p hp hne d hd => h.number_ne hp hmem hd hphase.number_eq hne
  have hsub : (s.drop name c).mfwdstate.Sublist s.mfwdstate := List.filter_sublist
  refine ⟨h.names.sublist (hsub.map _), h.numbers.sublist (hsub.map _), ?_, ?_,
    h.connecting_nodup.erase c, ?_, ?_⟩
  · intro p hp
    obtain ⟨hp, hne⟩ := Assoc.mem_remove.mp hp
    obtain ⟨d, hd⟩ := h.phase p hp
    have hdc := hother p hp hne d hd.number_eq
    refine ⟨d, hd.1, ?_, ?_⟩
    · simp [State.drop, hd.2.1, hdc]
    · simp only [h.connecting_nodup.mem_erase_iff]
      simpa [hdc] using hd.2.2
  · intro d hd
    obtain ⟨hdc, hd⟩ := h.connecting_nodup.mem_erase_iff.mp hd
    obtain ⟨p, hp, hpd⟩ := h.connecting d hd
    refine ⟨p, Assoc.mem_remove.mpr ⟨hp, ?_⟩, hpd⟩
    intro hname
    obtain rfl : p.2 = st := Assoc.eq_of_mem h.names (by rwa [← hname]) hmem
    exact hdc (hphase.of_connector hpd).1.symm
  · change (s.deleted ++ [c]).Nodup
    rw [← List.concat_eq_append, List.nodup_concat]
    exact ⟨hphase.2.1, h.deleted_nodup⟩
  · intro d hd
    rcases List.mem_append.mp hd with hd | hd
    · exact h.deleted_lt d hd
    · rw [List.mem_singleton.mp hd]
      exact hphase.1

/-! ## Workers -/

/-- The slot of a worker is called once: later, or the call is queued. -/
def Once (w : Worker) : Prop := w.connections = 1 ∧ w.pending = if w.running then 0 else 1

structure Kept (s : State) : Prop extends Table s where
  worker : ∀ w, (s.worker w).active = true →
    Once (s.worker w) ∧ ∃ p ∈ s.mfwdstate, p.2.worker = some w

theorem Kept.knows {s : State} (h : Kept s) {w : Nat} (hw : (s.worker w).active = true) :
    Knows s w := by
  obtain ⟨-, p, hp, hpw⟩ := h.worker w hw
  obtain ⟨c, hphase⟩ := h.phase p hp
  obtain ⟨-, hconn, hdel, -⟩ := hphase.of_worker hpw
  exact ⟨p.1, p.2, w, hp, hpw, hconn, hdel⟩

theorem Kept.crash {s : State} (h : Kept s) : Kept s.crash := ⟨h.toTable.crash, h.worker⟩

theorem Kept.modify {s : State} (h : Kept s) (name : QString) {f : ForwardState → ForwardState}
    (hf : ∀ st, SameObjects st (f st)) : Kept (s.modify name f) := by
  refine ⟨h.toTable.modify name hf, fun w hw => ?_⟩
  obtain ⟨honce, p, hp, hpw⟩ := h.worker w hw
  obtain ⟨q, hq, -, -, -, hworker⟩ := mem_modify_of_same name hf hp
  exact ⟨honce, q, hq, hworker.trans hpw⟩

theorem Kept.start {s : State} (h : Kept s) (sessName fsessName : QString) :
    Kept (slotForwardConnectStart sessName fsessName s) := by
  unfold slotForwardConnectStart
  split
  · exact h
  · split
    · exact h.modify fsessName fun _ => ⟨rfl, rfl, rfl⟩
    · next hname =>
      refine ⟨h.toTable.start (by simpa using hname), fun w hw => ?_⟩
      obtain ⟨honce, p, hp, hpw⟩ := h.worker w hw
      exact ⟨honce, p, List.mem_append_left _ hp, hpw⟩

theorem Kept.drop {s : State} (h : Kept s) {name : QString} {st : ForwardState} {c : Nat}
    (hmem : (name, st) ∈ s.mfwdstate) (hphase : Phase s c st) (hw : (s.worker c).active = false) :
    Kept { s.drop name c with connecting := s.connecting.erase c } := by
  refine ⟨h.toTable.drop hmem hphase, fun w hactive => ?_⟩
  obtain ⟨honce, p, hp, hpw⟩ := h.worker w hactive
  refine ⟨honce, p, Assoc.mem_remove.mpr ⟨hp, ?_⟩, hpw⟩
  intro hname
  obtain rfl : p.2 = st := Assoc.eq_of_mem h.names (by rwa [← hname]) hmem
  obtain rfl := (hphase.of_worker hpw).1
  exact absurd (hactive.symm.trans hw) (by simp)

theorem Kept.connectFinished {s : State} (h : Kept s) (c : Nat) (listen : Listen) :
    Kept (slotConnectRemoteHostFinished c listen s) := by
  unfold slotConnectRemoteHostFinished
  split
  · exact h.crash
  · next name st hof =>
    obtain ⟨hmem, hc⟩ := ofConnector_some hof
    obtain ⟨d, hphase⟩ := h.phase _ hmem
    obtain ⟨rfl, hnone⟩ := hphase.of_connector hc
    -- an entry with this worker would be the entry that has none yet
    have hother : ∀ p ∈ s.mfwdstate, ∀ w, p.2.worker = some w → p.1 ≠ name := by
      rintro p hp w hpw rfl
      obtain rfl : p.2 = st := Assoc.eq_of_mem h.names hp hmem
      rw [hnone] at hpw
      cases hpw
    cases listen with
    | listening =>
      refine ⟨(h.toTable.connected hmem hc).setWorker _, fun w hw => ?_⟩
      by_cases hwd : w = d
      · subst hwd
        refine ⟨by simp [Once], (name, ForwardState.connected w st), ?_, rfl⟩
        exact Assoc.mem_modify.mpr (.inr ⟨st, hmem, rfl⟩)
      · simp only [update_of_ne hwd] at hw ⊢
        obtain ⟨honce, p, hp, hpw⟩ := h.worker w hw
        exact ⟨honce, p, Assoc.mem_modify.mpr (.inl ⟨hp, hother p hp w hpw⟩), hpw⟩
    | refused srcPort eno netstat =>
      simp only
      split
      · exact h.crash
      · refine h.drop hmem hphase ?_
        rw [Bool.eq_false_iff]
        intro hactive
        obtain ⟨-, p, hp, hpw⟩ := h.worker d hactive
        obtain ⟨e, he⟩ := h.phase p hp
        obtain rfl := (he.of_worker hpw).1
        exact h.number_ne hp hmem he.number_eq hphase.number_eq (hother p hp _ hpw) rfl

theorem Kept.setWorker {s : State} (h : Kept s) {w : Nat} {x : Worker}
    (hx : x.active = true → Once x ∧ ∃ p ∈ s.mfwdstate, p.2.worker = some w) :
    Kept { s with worker := update s.worker w x } := by
  refine ⟨h.toTable.setWorker _, fun v hv => ?_⟩
  by_cases hvw : v = w
  · subst hvw
    simp only [update_self] at hv ⊢
    exact hx hv
  · simp only [update_of_ne hvw] at hv ⊢
    exact h.worker v hv

theorem Kept.ends {s : State} (h : Kept s) {w : Nat} (hw : (s.worker w).running = true) :
    Kept { s with worker := update s.worker w (s.worker w).ended } := by
  obtain ⟨⟨hone, hpending⟩, hentry⟩ := h.worker w (by simp [Worker.active, hw])
  apply h.setWorker
  intro _
  refine ⟨?_, hentry⟩
  simp [Once, Worker.ended, hone, hpending, hw]

theorem Kept.called {s : State} (h : Kept s) {w : Nat} (hw : 0 < (s.worker w).pending) :
    (s.worker w).called.active = false ∧
      Kept { s with worker := update s.worker w (s.worker w).called } := by
  have hinactive : (s.worker w).called.active = false := by
    obtain ⟨⟨-, hpending⟩, -⟩ := h.worker w (by simp [Worker.active, hw])
    cases hrunning : (s.worker w).running with
    | true =>
      rw [hpending, hrunning] at hw
      cases hw
    | false => simp [Worker.called, Worker.active, hpending, hrunning]
  refine ⟨hinactive, ?_⟩
  apply h.setWorker
  intro hactive
  rw [hinactive] at hactive
  cases hactive

theorem Kept.finished {s : State} (h : Kept s) {w : Nat} (hw : (s.worker w).active = false)
    (texts : Option (QString × QString)) : Kept (slotForwardWorkerFinished w texts s) := by
  unfold slotForwardWorkerFinished
  split
  · exact h.crash
  · next name st hof =>
    obtain ⟨hmem, hst⟩ := ofWorker_some hof
    obtain ⟨c, hphase⟩ := h.phase _ hmem
    obtain ⟨rfl, hconn, -, hnot⟩ := hphase.of_worker hst
    have hdrop : Kept (s.drop name c) := by
      have herase := h.drop hmem hphase hw
      rwa [List.erase_of_not_mem hnot] at herase
    rw [hconn]
    simp only
    split
    · split
      · exact hdrop.start _ _
      · exact hdrop
    · exact hdrop

theorem Kept.listenError {s : State} (h : Kept s) {w : Nat} {rn : Int} {listen : Listen}
    (hr : Restarts s (.listenError w rn listen)) :
    Kept (slotListenChannelError w rn listen s) := by
  have hsame : ∀ st : ForwardState, SameObjects st { st with wantReconn := true } :=
    fun _ => ⟨rfl, rfl, rfl⟩
  unfold slotListenChannelError
  split
  · exact h.crash
  · next name st hof =>
    split
    · exact h.modify name hsame
    · next hcancel =>
      have hoccupied := (hr (name, st) hof).resolve_left hcancel
      cases listen with
      | listening => cases hoccupied
      | refused srcPort eno netstat =>
        simp only
        split
        · exact h.modify name hsame
        · next hfalse _ => simp [Listen.occupied, hfalse] at hoccupied
        · exact h.crash

theorem Kept.step {s s' : State} {ev : Event} (h : Kept s) (hr : Restarts s ev)
    (hstep : step s ev = some s') : Kept s' ∧ Found s ev := by
  obtain ⟨henabled, rfl⟩ := Option.ite_some_none_eq_some.mp hstep
  obtain ⟨-, henabled⟩ := Bool.and_eq_true_iff.mp henabled
  cases ev with
  | click sessName fsessName => exact ⟨h.start sessName fsessName, trivial⟩
  | connectFinished c listen => exact ⟨h.connectFinished c listen, trivial⟩
  | listenError w rn listen => exact ⟨h.listenError hr, h.knows henabled⟩
  | ends w => exact ⟨h.ends henabled, trivial⟩
  | finished w texts =>
    have hpending : 0 < (s.worker w).pending := by simpa [Event.enabled] using henabled
    obtain ⟨hinactive, hcalled⟩ := h.called hpending
    refine ⟨hcalled.finished ?_ texts, h.knows (by simp [Worker.active, hpending])⟩
    simpa using hinactive

/-! ## What goes wrong otherwise -/

theorem step_of_enabled {s : State} {ev : Event} (hs : s.crashed = false)
    (he : ev.enabled s = true) : step s ev = some (ev.occur s) := by
  simp [step, hs, he]

theorem Table.not_knows_drop {s : State} (h : Table s) {name : QString} {st : ForwardState} {w : Nat}
    (hmem : (name, st) ∈ s.mfwdstate) (hw : st.worker = some w) (c : Nat) :
    ¬ Knows (s.drop name c) w := by
  rintro ⟨name', st', d, hmem', hw', -⟩
  obtain ⟨hmem', hne⟩ := Assoc.mem_remove.mp hmem'
  obtain ⟨e, he⟩ := h.phase _ hmem
  obtain ⟨e', he'⟩ := h.phase _ hmem'
  obtain rfl := (he.of_worker hw).1
  obtain rfl := (he'.of_worker hw').1
  exact h.number_ne hmem' hmem he'.number_eq he.number_eq hne rfl

theorem Table.finished {s : State} (h : Table s) {w : Nat} {p : QString × ForwardState}
    (hp : p ∈ s.mfwdstate) (hpw : p.2.worker = some w) :
    ∃ name, slotForwardWorkerFinished w none s = s.drop name w ∧ ¬ Knows (s.drop name w) w := by
  obtain ⟨⟨name, st⟩, hof⟩ := exists_ofWorker hp hpw
  obtain ⟨hmem, hst⟩ := ofWorker_some hof
  obtain ⟨c, hphase⟩ := h.phase _ hmem
  have hconn : st.conn = some w := (hphase.of_worker hst).2.1
  refine ⟨name, ?_, h.not_knows_drop hmem hst w⟩
  simp only [slotForwardWorkerFinished, hof, hconn]

theorem Table.called_twice {s : State} (h : Table s) {w : Nat} {p : QString × ForwardState}
    (hp : p ∈ s.mfwdstate) (hpw : p.2.worker = some w) (hs : s.crashed = false)
    (hpending : 1 < (s.worker w).pending) :
    ∃ t, Runs.run step s [.finished w none, .finished w none] = some t ∧
      ¬ Runs.Meets step Found s [.finished w none, .finished w none] := by
  obtain ⟨name, heq, hnot⟩ := (h.setWorker (update s.worker w (s.worker w).called)).finished hp hpw
  have hfirst : step s (.finished w none) = some
      ({ s with worker := update s.worker w (s.worker w).called }.drop name w) := by
    rw [step_of_enabled hs (by simp [Event.enabled]; omega)]
    exact congrArg some heq
  have hsecond : ∃ t, step ({ s with worker := update s.worker w (s.worker w).called }.drop name w)
      (.finished w none) = some t :=
    ⟨_, step_of_enabled hs (by simp [Event.enabled, State.drop, Worker.called]; omega)⟩
  obtain ⟨t, hsecond⟩ := hsecond
  refine ⟨t, Runs.run_cons.mpr ⟨_, hfirst, Runs.run_cons.mpr ⟨t, hsecond, rfl⟩⟩, ?_⟩
  intro hmeets
  exact hnot (hmeets.2 _ hfirst).1

theorem Table.connected_twice {s : State} (h : Table s) {w : Nat} {p : QString × ForwardState}
    (hp : p ∈ s.mfwdstate) (hpw : p.2.worker = some w) (hs : s.crashed = false)
    (hrunning : (s.worker w).running = true) (hconnections : 1 < (s.worker w).connections) :
    ∃ es t, Runs.run step s es = some t ∧ ¬ Runs.Meets step Found s es := by
  have hend : step s (.ends w) = some { s with worker := update s.worker w (s.worker w).ended } :=
    step_of_enabled hs hrunning
  have hpending : 1 < (s.worker w).ended.pending := by
    simp only [Worker.ended]
    omega
  obtain ⟨t, ht, hmiss⟩ := (h.setWorker (update s.worker w (s.worker w).ended)).called_twice hp hpw hs
    (by simpa using hpending)
  exact ⟨_, t, Runs.run_cons.mpr ⟨_, hend, ht⟩, fun hmeets => hmiss (hmeets.2 _ hend)⟩

theorem slot_misses_worker {s s' : State} {ev : Event} (h : Kept s) (hstep : step s ev = some s')
    (hr : ¬ Restarts s ev) :
    ∃ es t, Runs.run step s' es = some t ∧ ¬ Runs.Meets step Found s' es := by
  obtain ⟨henabled, rfl⟩ := Option.ite_some_none_eq_some.mp hstep
  obtain ⟨hs, henabled⟩ := Bool.and_eq_true_iff.mp henabled
  have hs : s.crashed = false := by simpa using hs
  cases ev with
  | listenError w rn listen =>
    simp only [Restarts, Option.mem_def, Prod.forall, not_forall, not_or, not_not] at hr
    obtain ⟨name, st, hof, hcancel, hfree⟩ := hr
    obtain ⟨hmem, hst⟩ := ofWorker_some hof
    obtain ⟨c, hphase⟩ := h.phase _ hmem
    obtain ⟨rfl, hconn, -⟩ := hphase.of_worker hst
    have hconn : st.conn = some c := hconn
    cases listen with
    | listening =>
      have heq : (Event.listenError c rn .listening).occur s =
          { s.modify name fun st => { st with lsner := true } with
            worker := update s.worker c (s.worker c).connectAndStart } := by
        simp [Event.occur, slotListenChannelError, hof, hcancel]
      rw [heq]
      have hsame : ∀ st : ForwardState, SameObjects st { st with lsner := true } :=
        fun _ => ⟨rfl, rfl, rfl⟩
      have htable := (h.toTable.modify name hsame).setWorker
        (update s.worker c (s.worker c).connectAndStart)
      obtain ⟨q, hq, -, -, -, hqw⟩ := mem_modify_of_same name hsame hmem
      obtain ⟨⟨hone, -⟩, -⟩ := h.worker c henabled
      refine htable.connected_twice hq (hqw.trans hst) hs ?_ ?_
      · simp [Worker.connectAndStart]
      · simp [Worker.connectAndStart, hone]
    | refused srcPort eno netstat =>
      have heq : (Event.listenError c rn (.refused srcPort eno netstat)).occur s = s.drop name c := by
        have hfalse : fullRestart srcPort eno netstat = some false := by
          simpa [Listen.occupied] using hfree
        simp [Event.occur, slotListenChannelError, hof, hcancel, hfalse, hconn]
      rw [heq]
      have hnext : ∃ t, step (s.drop name c) (.listenError c 0 .listening) = some t :=
        ⟨_, step_of_enabled hs henabled⟩
      obtain ⟨t, hnext⟩ := hnext
      refine ⟨[.listenError c 0 .listening], t, Runs.run_cons.mpr ⟨t, hnext, rfl⟩, ?_⟩
      intro hmeets
      exact h.not_knows_drop hmem hst c hmeets.1
  | _ => exact absurd trivial hr

/-! ## Every run -/

theorem kept_start : Kept {} := by
  refine ⟨⟨List.nodup_nil, List.nodup_nil, ?_, ?_, List.nodup_nil, List.nodup_nil, ?_⟩, ?_⟩
  · simp
  · simp
  · simp
  · intro w hw
    cases hw

/-- **The manager knows its workers** in the runs in which every listen error ends in a restart: a
slot finds the entry of the worker, with a connection that was not deleted, and no connection is
deleted twice. After a listen error that ends otherwise a slot can miss its worker. -/
theorem manager_knows_workers (es : List Event) (s : State) (hrun : Runs.run step {} es = some s)
    (hmeets : Runs.Meets step Restarts {} es) :
    Runs.Meets step Found {} es ∧ s.deleted.Nodup ∧
      ∀ ev s', step s ev = some s' → ¬ Restarts s ev →
        ∃ es' t, Runs.run step s' es' = some t ∧ ¬ Runs.Meets step Found s' es' := by
  have hstep : ∀ s ev s', Kept s → Restarts s ev → step s ev = some s' → Kept s' :=
    fun _ _ _ hs hr h => (hs.step hr h).1
  have hfound : ∀ s ev s', Kept s → Restarts s ev → step s ev = some s' → Found s ev :=
    fun _ _ _ hs hr h => (hs.step hr h).2
  have hkept := Runs.run_invariant_of_meets Kept hstep kept_start hmeets hrun
  refine ⟨Runs.meets_of_invariant Kept hstep hfound kept_start hmeets hrun, hkept.deleted_nodup, ?_⟩
  intro ev s' hev hr
  exact slot_misses_worker hkept hev hr

/-- A forward whose port is listened on, and whose listener cannot be cancelled after an error. -/
def reconnected : List Event :=
  [.click ['a'] ['f'], .connectFinished 0 .listening, .listenError 0 (-7) .listening, .ends 0,
    .finished 0 (some (['a'], ['f'])), .connectFinished 1 (.refused 8000 (-1) [])]

theorem manager_knows_workers_reconnected :
    ∃ s, Runs.run step {} reconnected = some s ∧ s.deleted = [0, 1] ∧ s.deleted.Nodup ∧
      Runs.Meets step Found {} reconnected := by
  have hmeets : Runs.Meets step Restarts {} reconnected := by decide
  obtain ⟨hfound, hnodup, -⟩ := manager_knows_workers reconnected _ rfl hmeets
  exact ⟨_, rfl, rfl, hnodup, hfound⟩

theorem called_without_entry :
    ∃ s, Runs.run step {} [.click ['a'] ['f'], .connectFinished 0 .listening,
        .listenError 0 0 .listening, .click ['a'] ['f'], .ends 0, .finished 0 none] = some s ∧
      s.mfwdstate = [] ∧ (Event.finished 0 none).enabled s = true ∧ ¬ Found s (.finished 0 none) := by
  -- The listener is replaced after an error, and the user stops the forward: the slot is called
  -- twice, and the second call finds no entry.
  refine ⟨_, rfl, rfl, rfl, ?_⟩
  rintro ⟨name, st, c, hmem, -⟩
  cases hmem

end NullFxp.Forward.Manager
