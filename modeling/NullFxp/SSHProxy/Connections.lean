import Mathlib.Data.Option.Basic
import NullFxp.Lib.Product
import NullFxp.SSHProxy.Proxy

/-!
# One browser connection

The proxy is as many connections as it has sockets. None of them sees another, but the session keeps
one request for a channel for all of them, and what is asked for next is answered with that.
-/

namespace NullFxp.SSHProxy

open Forward (Bytes taken)

/-- `dest` is what there is to say about where a channel leads. -/
inductive Conn (δ : Type) where
  | absent
  /-- without a channel, and what was written to the socket -/
  | waiting (out : Bytes)
  | linked (out : Bytes) (dest : δ) (received : Bytes)
  deriving DecidableEq

section Dest

variable {δ : Type} (say : QString × Nat → δ)

inductive ConnEvent where
  | connected
  /-- `opened`: one of the two calls returned a channel -/
  | chunk (ba : Bytes) (opened : Bool) (wlen : Int)
  | disconnected
  | poll (rbuf : Bytes)

/-- A request has to come first, and then never again. -/
def Conn.step (http : Http) : Conn δ → ConnEvent → Option (Conn δ)
  | .absent, .connected => some (.waiting [])
  | .absent, .chunk _ _ _ => none
  | .waiting out, .chunk ba opened wlen =>
    if http.isRequest ba then
      some (if opened then .linked out (say (http.dest ba)) (taken ba wlen) else .waiting out)
    else none
  | .linked out dest received, .chunk ba opened wlen =>
    if http.isRequest ba then if opened then none else some (.linked out dest received)
    else some (.linked out dest (received ++ taken ba wlen))
  | .linked out dest received, .poll rbuf => some (.linked (out ++ rbuf) dest received)
  | _, .disconnected => some .absent
  | c, _ => some c

def project (sock : Sock) : Event → Option ConnEvent
  | .newConnection k => if k = sock then some .connected else none
  | .readyRead k ba first second wlen =>
    if k = sock then some (.chunk ba (openedBy first second).isSome wlen) else none
  | .disconnected k _ => if k = sock then some .disconnected else none
  | .timeout reads => some (.poll ((reads sock).take 999))

/-- What the proxy has for a socket. -/
def Proxy.conn (s : Proxy) (sock : Sock) : Conn δ :=
  match Assoc.value s.socks sock with
  | none => .absent
  | some out =>
    match (Assoc.value s.mconns sock).join.bind (Assoc.value s.chans) with
    | some pipe => .linked out (say pipe.dest) pipe.received
    | none => .waiting out

/-- No request is left in the session that another connection could be answered with, or it does not
count. -/
def Idle (s : Proxy) : Prop := (∀ d d', say d = say d') ∨ s.direct = none

/-- The calls of the event leave none. -/
def Settles : Event → Prop
  | .readyRead _ _ first second _ => first.chan?.isSome = true ∨ second ≠ .again
  | _ => True

instance : ∀ e, Decidable (Settles e)
  | .newConnection _ => inferInstanceAs (Decidable True)
  | .readyRead _ _ _ _ _ => inferInstanceAs (Decidable (_ ∨ _))
  | .disconnected _ _ => inferInstanceAs (Decidable True)
  | .timeout _ => inferInstanceAs (Decidable True)

def Settled (e : Event) : Prop := (∀ d d', say d = say d') ∨ Settles e

section Conn

variable {s s' : Proxy} {sock : Sock} {out : Bytes} {chan : Chan} {pipe : Pipe}

theorem conn_eq (hsocks : Assoc.value s'.socks sock = Assoc.value s.socks sock)
    (hpipe : (Assoc.value s'.mconns sock).join.bind (Assoc.value s'.chans) =
      (Assoc.value s.mconns sock).join.bind (Assoc.value s.chans)) :
    s'.conn say sock = s.conn say sock := by
  unfold Proxy.conn
  rw [hsocks, hpipe]

theorem conn_absent (h : Assoc.value s.socks sock = none) : s.conn say sock = .absent := by
  unfold Proxy.conn
  rw [h]

theorem conn_waiting (h : Assoc.value s.socks sock = some out)
    (hconn : Assoc.value s.mconns sock = some none) : s.conn say sock = .waiting out := by
  unfold Proxy.conn
  simp [h, hconn]

theorem conn_linked (h : Assoc.value s.socks sock = some out)
    (hconn : Assoc.value s.mconns sock = some (some chan))
    (hpipe : Assoc.value s.chans chan = some pipe) :
    s.conn say sock = .linked out (say pipe.dest) pipe.received := by
  unfold Proxy.conn
  simp [h, hconn, hpipe]

theorem Proxy.Inv.cases (h : s.Inv) (hsock : (Assoc.value s.socks sock).isSome = true) :
    ∃ out, Assoc.value s.socks sock = some out ∧
      (Assoc.value s.mconns sock = some none ∨ ∃ chan pipe,
        Assoc.value s.mconns sock = some (some chan) ∧ Assoc.value s.chans chan = some pipe) := by
  obtain ⟨out, hout⟩ := Option.isSome_iff_exists.mp hsock
  refine ⟨out, hout, ?_⟩
  obtain ⟨c, hc⟩ := Option.isSome_iff_exists.mp ((h.same sock).trans hsock)
  cases c with
  | none => exact .inl hc
  | some chan =>
    obtain ⟨pipe, hpipe⟩ := Option.isSome_iff_exists.mp (h.isOpen hc)
    exact .inr ⟨chan, pipe, hc, hpipe⟩

end Conn

/-! ## One event -/

/-- What an event leaves when it does not stop the proxy. -/
structure Moves (http : Http) (s : Proxy) (e : Event) (s' : Proxy) : Prop where
  inv : s'.Inv
  idle : Idle say s'
  conn : ∀ k, Product.act (Conn.step say http) (project k e) (s.conn say k) = some (s'.conn say k)

section Events

variable {say} {http : Http} {s : Proxy} {sock : Sock}

theorem Idle.congr {s' : Proxy} (hidle : Idle say s) (h : s'.direct = s.direct) : Idle say s' :=
  hidle.imp_right h.trans

theorem Idle.say_getD (hidle : Idle say s) (dest : QString × Nat) :
    say (s.direct.getD dest) = say dest := by
  rcases hidle with hsame | hnone
  · exact hsame _ _
  · rw [hnone]
    rfl

theorem moves_newConnection (h : s.Inv) (hidle : Idle say s)
    (hnew : (Assoc.value s.socks sock).isSome = false) :
    Moves say http s (.newConnection sock) (slotNewconnection sock s) := by
  refine ⟨h.newConnection hnew, hidle, fun k => ?_⟩
  simp only [project]
  split
  · next hk =>
    subst hk
    rw [conn_absent say (by simpa using hnew)]
    refine congrArg some (conn_waiting say ?_ ?_).symm
    · simp [slotNewconnection, Assoc.value_cons]
    · simp [slotNewconnection, value_insert]
  · next hk =>
    refine congrArg some (conn_eq say ?_ ?_).symm
    · simp [slotNewconnection, Assoc.value_cons, hk]
    · simp [slotNewconnection, value_insert, Ne.symm hk]

variable (say) in
theorem channelWrite_spec (h : s.Inv) {chan : Chan} {pipe : Pipe} {out : Bytes}
    (hout : Assoc.value s.socks sock = some out)
    (hconn : Assoc.value s.mconns sock = some (some chan))
    (hpipe : Assoc.value s.chans chan = some pipe) (ba : Bytes) (wlen : Int) :
    ∃ s', channelWrite chan ba wlen s = .ok s' ∧ s'.Inv ∧ s'.direct = s.direct ∧
      s'.conn say sock = .linked out (say pipe.dest) (pipe.received ++ taken ba wlen) ∧
      ∀ k, k ≠ sock → s'.conn say k = s.conn say k := by
  refine ⟨_, if_pos (h.isOpen hconn), ?_, rfl, ?_, ?_⟩
  · refine h.congr rfl (fun _ => rfl) (fun c => ?_) rfl
    simp only [Assoc.value_modify]
    split <;> simp
  · unfold Proxy.conn
    simp [hout, hconn, Assoc.value_modify, hpipe]
  · intro k hk
    refine conn_eq say rfl ?_
    cases hk' : Assoc.value s.mconns k with
    | none => rfl
    | some c =>
      cases c with
      | none => rfl
      | some c =>
        have hne : c ≠ chan := by
          rintro rfl
          exact hk (h.owner k sock c hk' hconn)
        simp [Assoc.value_modify, hne]

theorem openChannel_eq (dest : QString × Nat) (first second : Opening) (s : Proxy) :
    ∃ direct d, openChannel dest first second s = { s with
        direct := direct
        chans := ((openedBy first second).map fun chan => (chan, (⟨d, []⟩ : Pipe))).toList ++ s.chans } ∧
      (d = dest ∨ d = s.direct.getD dest) ∧
      (first.chan?.isSome = true ∨ second ≠ .again → direct = none) := by
  cases first with
  | opened chan => exact ⟨none, _, rfl, .inr rfl, fun _ => rfl⟩
  | again =>
    cases second with
    | opened chan => exact ⟨none, _, rfl, .inr rfl, fun _ => rfl⟩
    | again => exact ⟨_, dest, rfl, .inl rfl, by simp [Opening.chan?]⟩
    | failed => exact ⟨none, dest, rfl, .inl rfl, fun _ => rfl⟩
  | failed =>
    cases second with
    | opened chan => exact ⟨none, dest, rfl, .inl rfl, fun _ => rfl⟩
    | again => exact ⟨_, dest, rfl, .inl rfl, by simp [Opening.chan?]⟩
    | failed => exact ⟨none, dest, rfl, .inl rfl, fun _ => rfl⟩

variable (say) in
/-- The event goes well, or an assertion fails for the socket that it is about. -/
def Answered (http : Http) (s : Proxy) (e : Event) : Prop :=
  (∃ s', s.event http e = .ok s' ∧ Moves say http s e s') ∨
    s.event http e = .error .assertion ∧
      ∃ k, Product.act (Conn.step say http) (project k e) (s.conn say k) = none

section Chunk

variable {ba : Bytes} {first second : Opening} {wlen : Int} {c : Conn δ}
  (hc : s.conn say sock = c)

include hc

theorem answered_of_moves {c' : Conn δ} {s' : Proxy}
    (hevent : s.event http (.readyRead sock ba first second wlen) = .ok s') (hinv : s'.Inv)
    (hidle : Idle say s')
    (hstep : c.step say http (.chunk ba (openedBy first second).isSome wlen) = some c')
    (hc' : s'.conn say sock = c') (hother : ∀ k, k ≠ sock → s'.conn say k = s.conn say k) :
    Answered say http s (.readyRead sock ba first second wlen) := by
  subst hc hc'
  refine .inl ⟨s', hevent, hinv, hidle, fun k => ?_⟩
  simp only [project]
  split
  · next hk => rw [← hk]; exact hstep
  · next hk => exact congrArg some (hother k (Ne.symm hk)).symm

theorem answered_of_stops
    (hevent : s.event http (.readyRead sock ba first second wlen) = .error .assertion)
    (hstep : c.step say http (.chunk ba (openedBy first second).isSome wlen) = none) :
    Answered say http s (.readyRead sock ba first second wlen) := by
  subst hc
  exact .inr ⟨hevent, sock, by simpa [project, Product.act] using hstep⟩

theorem answered_unopened (h : s.Inv) (hidle : Idle say s)
    (hsettles : Settled say (.readyRead sock ba first second wlen))
    (hreq : http.isRequest ba = true) (hopen : openedBy first second = none)
    (hstep : c.step say http (.chunk ba false wlen) = some c) :
    Answered say http s (.readyRead sock ba first second wlen) := by
  obtain ⟨direct, d, heq, -, hdirect⟩ := openChannel_eq (http.dest ba) first second s
  simp only [hopen, Option.map_none, Option.toList_none, List.nil_append] at heq
  have hidle' : Idle say { s with direct := direct } := hidle.elim .inl fun _ => hsettles.imp_right hdirect
  have hevent : s.event http (.readyRead sock ba first second wlen) = .ok { s with direct := direct } := by
    simp [Proxy.event, slotReadyRead, hreq, hopen, heq]
  exact answered_of_moves hc hevent (h.congr rfl (fun _ => rfl) (fun _ => rfl) rfl) hidle'
    (by rw [hopen]; exact hstep) hc fun _ _ => rfl

end Chunk

theorem answered_linked (h : s.Inv) (hidle : Idle say s) {out ba : Bytes} {first second : Opening}
    {wlen : Int} (hsettles : Settled say (.readyRead sock ba first second wlen))
    (hout : Assoc.value s.socks sock = some out) (hwaiting : Assoc.value s.mconns sock = some none)
    (hreq : http.isRequest ba = true) {chan : Chan} (hopen : openedBy first second = some chan)
    (hfresh : (Assoc.value s.chans chan).isSome = false) :
    Answered say http s (.readyRead sock ba first second wlen) := by
  obtain ⟨direct, d, heq, hd, hdirect⟩ := openChannel_eq (http.dest ba) first second s
  simp only [hopen, Option.map_some, Option.toList_some, List.singleton_append] at heq
  have hsay : say d = say (http.dest ba) := by
    rcases hd with rfl | rfl
    · rfl
    · exact hidle.say_getD _
  have hlinked := h.linked hwaiting hfresh ⟨d, []⟩ true direct
  have hkey : Assoc.value (insert s.mconns sock (some chan)) sock = some (some chan) := by
    simp [value_insert]
  have hpipe : Assoc.value ((chan, (⟨d, []⟩ : Pipe)) :: s.chans) chan = some (⟨d, []⟩ : Pipe) := by
    simp [Assoc.value_cons]
  obtain ⟨s', hs', hinv, hdirect', hconn', hother⟩ :=
    channelWrite_spec say hlinked hout hkey hpipe ba wlen
  have hevent : s.event http (.readyRead sock ba first second wlen) = .ok s' := by
    simpa [Proxy.event, slotReadyRead, hreq, hopen, heq, hwaiting] using hs'
  have hidle' : Idle say s' := hsettles.imp_right fun hs => hdirect'.trans (hdirect hs)
  refine answered_of_moves (conn_waiting say hout hwaiting) hevent hinv hidle'
    (by simp [Conn.step, hreq, hopen, ← hsay]) hconn' ?_
  intro k hk
  rw [hother k hk]
  refine conn_eq say rfl ?_
  simp only [value_insert, if_neg hk]
  cases hk' : Assoc.value s.mconns k with
  | none => rfl
  | some c =>
    cases c with
    | none => rfl
    | some c =>
      have hne : chan ≠ c := by
        rintro rfl
        rw [h.isOpen hk'] at hfresh
        cases hfresh
      simp [Assoc.value_cons, hne]

theorem answered_readyRead (h : s.Inv) (hidle : Idle say s)
    (hsock : (Assoc.value s.socks sock).isSome = true)
    {ba : Bytes} {first second : Opening} {wlen : Int}
    (hsettles : Settled say (.readyRead sock ba first second wlen))
    (hnew : ∀ chan ∈ openedBy first second, (Assoc.value s.chans chan).isSome = false) :
    Answered say http s (.readyRead sock ba first second wlen) := by
  obtain ⟨out, hout, hwaiting | ⟨chan, pipe, hconn, hpipe⟩⟩ := h.cases hsock
  · have hc := conn_waiting say hout hwaiting
    by_cases hreq : http.isRequest ba = true
    · cases hopen : openedBy first second with
      | some chan => exact answered_linked h hidle hsettles hout hwaiting hreq hopen (hnew chan hopen)
      | none => exact answered_unopened hc h hidle hsettles hreq hopen (by simp [Conn.step, hreq])
    · exact answered_of_stops hc (by simp [Proxy.event, slotReadyRead, hreq, hwaiting])
        (by simp [Conn.step, hreq])
  · have hc := conn_linked say hout hconn hpipe
    by_cases hreq : http.isRequest ba = true
    · cases hopen : openedBy first second with
      | some chan' =>
        -- `Q_ASSERT(this->mconns.value(sock) == NULL)`
        obtain ⟨direct, d, heq, -⟩ := openChannel_eq (http.dest ba) first second s
        exact answered_of_stops hc
          (by simp [Proxy.event, slotReadyRead, hreq, hopen, heq, hconn])
          (by simp [Conn.step, hreq, hopen])
      | none => exact answered_unopened hc h hidle hsettles hreq hopen (by simp [Conn.step, hreq])
    · obtain ⟨s', hs', hinv, hdirect, hconn', hother⟩ :=
        channelWrite_spec say h hout hconn hpipe ba wlen
      have hevent : s.event http (.readyRead sock ba first second wlen) = .ok s' := by
        simpa [Proxy.event, slotReadyRead, hreq, hconn] using hs'
      exact answered_of_moves hc hevent hinv (hidle.congr hdirect) (by simp [Conn.step, hreq]) hconn'
        hother

theorem answered_disconnected (h : s.Inv) (hidle : Idle say s)
    (hsock : (Assoc.value s.socks sock).isSome = true) (frees : Bool) :
    Answered say http s (.disconnected sock frees) := by
  have hact : ∀ {s' : Proxy}, s'.Inv → s'.direct = s.direct → s'.conn say sock = .absent →
      (∀ k, k ≠ sock → s'.conn say k = s.conn say k) →
      Moves say http s (.disconnected sock frees) s' := by
    intro s' hinv hdirect habsent hother
    refine ⟨hinv, hidle.congr hdirect, fun k => ?_⟩
    simp only [project]
    split
    · next hk =>
      rw [← hk, habsent]
      cases s.conn say sock <;> rfl
    · next hk => exact congrArg some (hother k (Ne.symm hk)).symm
  obtain ⟨out, hout, hwaiting | ⟨chan, pipe, hconn, hpipe⟩⟩ := h.cases hsock
  · refine .inl ⟨{ s with
      mconns := Assoc.remove s.mconns sock, socks := Assoc.remove s.socks sock },
      by simp [Proxy.event, slotDisconnected, hwaiting], hact ?_ rfl ?_ ?_⟩
    · exact h.removed (by simp [hwaiting]) (by simp [hwaiting])
    · exact conn_absent say (by simp [Assoc.value_remove])
    · intro k hk
      exact conn_eq say (by simp [Assoc.value_remove, hk]) (by simp [Assoc.value_remove, hk])
  · have hother : ∀ k, k ≠ sock → ∀ c, Assoc.value s.mconns k = some (some c) → c ≠ chan := by
      rintro k hk c hk' rfl
      exact hk (h.owner k sock c hk' hconn)
    cases frees with
    | true =>
      refine .inl ⟨{ s with
        mconns := Assoc.remove s.mconns sock, socks := Assoc.remove s.socks sock,
        chans := Assoc.remove s.chans chan },
        by simp [Proxy.event, slotDisconnected, hconn, hpipe], hact ?_ rfl ?_ ?_⟩
      · have hkept := h.kept sock chan hconn
        refine h.removed (fun c => ?_) fun c => ?_
        · rw [Assoc.value_remove, hconn]
          by_cases hc : c = chan
          · simp [hc, hkept]
          · simp [hc, Ne.symm hc]
        · rw [Assoc.value_remove, hconn]
          by_cases hc : c = chan
          · simp [hc]
          · simp [Ne.symm hc]
      · exact conn_absent say (by simp [Assoc.value_remove])
      · intro k hk
        refine conn_eq say (by simp [Assoc.value_remove, hk]) ?_
        simp only [Assoc.value_remove, if_neg hk]
        cases hk' : Assoc.value s.mconns k with
        | none => rfl
        | some c =>
          cases c with
          | none => rfl
          | some c => simp [hother k hk c hk']
    | false =>
      -- The channel stays open, and nobody has it any more.
      refine .inl ⟨{ s with
        mconns := Assoc.remove s.mconns sock, socks := Assoc.remove s.socks sock,
        lost := chan :: s.lost },
        by simp [Proxy.event, slotDisconnected, hconn, hpipe], hact ?_ rfl ?_ ?_⟩
      · refine h.removed (fun c => ?_) fun c => ?_
        · rw [hconn]
          by_cases hc : c = chan
          · simp [hc]
          · simp [Ne.symm hc]
        · rw [hconn, List.mem_cons]
          by_cases hc : c = chan
          · simp [hc, hpipe]
          · simp [hc, Ne.symm hc]
      · exact conn_absent say (by simp [Assoc.value_remove])
      · intro k hk
        exact conn_eq say (by simp [Assoc.value_remove, hk]) (by simp [Assoc.value_remove, hk])

/-- What one round of the timer writes to a socket. -/
def polled (reads : Sock → Bytes) (conns : List (Sock × Option Chan)) (k : Sock) : Bytes :=
  match Assoc.value conns k with
  | some (some _) => (reads k).take 999
  | _ => []

theorem polled_nil (reads : Sock → Bytes) (k : Sock) : polled reads [] k = [] := rfl

theorem polled_cons (reads : Sock → Bytes) (sock : Sock) (c : Option Chan)
    (conns : List (Sock × Option Chan)) (k : Sock) :
    polled reads ((sock, c) :: conns) k =
      if sock = k then (if c.isSome then (reads k).take 999 else []) else polled reads conns k := by
  unfold polled
  rw [Assoc.value_cons]
  by_cases hk : sock = k
  · cases c <;> simp [hk]
  · simp [hk]

theorem polled_of_notMem (reads : Sock → Bytes) {conns : List (Sock × Option Chan)} {sock : Sock}
    (h : sock ∉ conns.map Prod.fst) : polled reads conns sock = [] := by
  have hnone : Assoc.value conns sock = none := by
    rw [← Option.not_isSome_iff_eq_none, Assoc.value_isSome]
    exact h
  unfold polled
  rw [hnone]

theorem slotTimeout_spec (reads : Sock → Bytes) (conns : List (Sock × Option Chan))
    (hnodup : (conns.map Prod.fst).Nodup) {s : Proxy}
    (hopen : ∀ e ∈ conns, (Assoc.value s.socks e.1).isSome = true ∧
      ∀ chan, e.2 = some chan → (Assoc.value s.chans chan).isSome = true) :
    ∃ socks, slotTimeout reads conns s = .ok { s with socks := socks } ∧
      ∀ k, Assoc.value socks k = (Assoc.value s.socks k).map (· ++ polled reads conns k) := by
  induction conns generalizing s with
  | nil => exact ⟨s.socks, rfl, fun k => by simp [polled_nil]⟩
  | cons e conns ih =>
    obtain ⟨sock, c⟩ := e
    rw [List.map_cons, List.nodup_cons] at hnodup
    obtain ⟨⟨hlive, hchan⟩, hconns⟩ := List.forall_mem_cons.mp hopen
    have hnone := polled_of_notMem reads hnodup.1
    -- Nothing is read for this socket.
    have hskip : c = none ∨ (reads sock).take 999 = [] → ∀ k,
        polled reads ((sock, c) :: conns) k = polled reads conns k := by
      intro hc k
      rw [polled_cons]
      split
      · next hk =>
        subst hk
        rw [hnone]
        rcases hc with rfl | hempty
        · rfl
        · rw [hempty, ite_self]
      · rfl
    unfold slotTimeout
    cases c with
    | none =>
      obtain ⟨socks, hok, hsocks⟩ := ih hnodup.2 hconns
      exact ⟨socks, hok, fun k => by rw [hsocks, hskip (.inl rfl)]⟩
    | some chan =>
      simp only [hchan chan rfl, hlive, Bool.true_eq_false, if_false, if_true]
      split
      · next hempty =>
        obtain ⟨socks, hok, hsocks⟩ := ih hnodup.2 hconns
        exact ⟨socks, hok, fun k => by rw [hsocks, hskip (.inr hempty)]⟩
      · obtain ⟨socks, hok, hsocks⟩ := ih hnodup.2 (s := { s with
            socks := Assoc.modify s.socks sock (· ++ (reads sock).take 999) }) fun e he => by
          refine ⟨?_, (hconns e he).2⟩
          rw [Assoc.value_modify]
          split
          · rw [Option.isSome_map]
            exact (hconns e he).1
          · exact (hconns e he).1
        refine ⟨socks, hok, fun k => ?_⟩
        rw [hsocks, polled_cons, Assoc.value_modify]
        by_cases hk : sock = k
        · subst hk
          cases Assoc.value s.socks sock <;> simp [hnone]
        · rw [if_neg (Ne.symm hk), if_neg hk]

theorem answered_timeout (h : s.Inv) (hidle : Idle say s) (reads : Sock → Bytes) :
    Answered say http s (.timeout reads) := by
  have hopen : ∀ e ∈ s.mconns, (Assoc.value s.socks e.1).isSome = true ∧
      ∀ chan, e.2 = some chan → (Assoc.value s.chans chan).isSome = true := by
    rintro ⟨k, c⟩ he
    have hvalue := (Assoc.value_eq_some_iff h.conns).mpr he
    refine ⟨by rw [← h.same, hvalue]; rfl, ?_⟩
    rintro chan rfl
    exact h.isOpen hvalue
  obtain ⟨socks, hok, hsocks⟩ := slotTimeout_spec reads s.mconns h.conns hopen
  refine .inl ⟨_, hok, h.congr rfl (fun k => ?_) (fun _ => rfl) rfl, hidle, fun k => ?_⟩
  · rw [hsocks, Option.isSome_map]
  · simp only [project]
    cases hk : (Assoc.value s.socks k).isSome with
    | false =>
      have hnone : Assoc.value s.socks k = none := by simpa using hk
      rw [conn_absent say hnone, conn_absent say (by simp [hsocks, hnone])]
      rfl
    | true =>
      obtain ⟨out, hout, hwaiting | ⟨chan, pipe, hconn, hpipe⟩⟩ := h.cases hk
      · have hafter : Proxy.conn say { s with socks := socks } k = .waiting out :=
          conn_waiting say (by simp [hsocks, hout, polled, hwaiting]) hwaiting
        rw [conn_waiting say hout hwaiting, hafter]
        rfl
      · have hafter : Proxy.conn say { s with socks := socks } k =
            .linked (out ++ (reads k).take 999) (say pipe.dest) pipe.received :=
          conn_linked say (by simp [hsocks, hout, polled, hconn]) hconn hpipe
        rw [conn_linked say hout hconn hpipe, hafter]
        rfl

variable (http) in
theorem answered_of_allowed (h : s.Inv) (hidle : Idle say s) {e : Event} (he : Allowed s e)
    (hsettles : Settled say e) : Answered say http s e := by
  cases e with
  | newConnection sock => exact .inl ⟨_, rfl, moves_newConnection h hidle he⟩
  | readyRead sock ba first second wlen => exact answered_readyRead h hidle he.1 hsettles he.2
  | disconnected sock frees => exact answered_disconnected h hidle he frees
  | timeout reads => exact answered_timeout h hidle reads

end Events

/-! ## Runs -/

theorem splits (http : Http) :
    Product.Splits (step http) (Conn.step say http) project (Proxy.conn say)
      (fun s => s.Inv ∧ Idle say s) (fun s e => Allowed s e ∧ Settled say e) where
  keeps s e s' h he hs := by
    obtain ⟨t, ht, hmoves⟩ | ⟨hstop, -⟩ := answered_of_allowed http h.1 h.2 he.1 he.2
    · obtain rfl : t = s' := by simpa [step, ht, Except.toOption] using hs
      exact ⟨hmoves.inv, hmoves.idle⟩
    · simp [step, hstop, Except.toOption] at hs
  goesOn s e s' h he hs := by
    obtain ⟨t, ht, hmoves⟩ | ⟨hstop, -⟩ := answered_of_allowed http h.1 h.2 he.1 he.2
    · obtain rfl : t = s' := by simpa [step, ht, Except.toOption] using hs
      exact hmoves.conn
    · simp [step, hstop, Except.toOption] at hs
  stops s e h he hs := by
    obtain ⟨t, ht, -⟩ | ⟨-, hk⟩ := answered_of_allowed http h.1 h.2 he.1 he.2
    · simp [step, ht, Except.toOption] at hs
    · exact hk

end Dest

/-- What there is to say about a connection, whatever is left in the session. -/
def sayNothing (_ : QString × Nat) : Unit := ()

theorem settled_sayNothing (e : Event) : Settled sayNothing e := .inl fun _ _ => rfl

theorem idle_start {δ : Type} (say : QString × Nat → δ) : Idle say .start := .inr rfl

theorem meets_settled {http : Http} {as : List Event} {s : Proxy}
    (hm : Runs.Meets (step http) Allowed s as) {δ : Type} {say : QString × Nat → δ}
    (has : ∀ e ∈ as, Settled say e) :
    Runs.Meets (step http) (fun s e => Allowed s e ∧ Settled say e) s as := by
  induction as generalizing s with
  | nil => trivial
  | cons e as ih =>
    obtain ⟨he, has⟩ := List.forall_mem_cons.mp has
    exact ⟨⟨hm.1, he⟩, fun t ht => ih (hm.2 t ht) has⟩

/-! ## Channels that are lost -/

theorem slotTimeout_lost {reads : Sock → Bytes} {conns : List (Sock × Option Chan)} {s s' : Proxy}
    (h : slotTimeout reads conns s = .ok s') : s'.lost = s.lost := by
  induction conns generalizing s with
  | nil => exact congrArg Proxy.lost (Except.ok.inj h).symm
  | cons e conns ih =>
    obtain ⟨sock, _ | chan⟩ := e
    · exact ih h
    · simp only [slotTimeout] at h
      split at h
      · cases h
      · split at h
        · exact ih h
        · split at h
          · exact (ih h :)
          · cases h

theorem channelWrite_lost {chan : Chan} {ba : Bytes} {wlen : Int} {s s' : Proxy}
    (h : channelWrite chan ba wlen s = .ok s') : s'.lost = s.lost := by
  unfold channelWrite at h
  split at h
  · obtain rfl := Except.ok.inj h
    rfl
  · cases h

theorem event_lost {http : Http} {s s' : Proxy} {e : Event} (he : ∀ sock, e ≠ .disconnected sock false)
    (h : s.event http e = .ok s') : s'.lost = s.lost := by
  cases e with
  | newConnection sock =>
    obtain rfl := Except.ok.inj h
    rfl
  | timeout reads => exact slotTimeout_lost h
  | readyRead sock ba first second wlen =>
    obtain ⟨direct, d, heq, -⟩ := openChannel_eq (http.dest ba) first second s
    simp only [Proxy.event, slotReadyRead, heq] at h
    split at h
    · split at h
      · obtain rfl := Except.ok.inj h
        rfl
      · split at h
        · exact (channelWrite_lost h :)
        · cases h
    · split at h
      · exact channelWrite_lost h
      · cases h
  | disconnected sock frees =>
    cases frees with
    | false => exact absurd rfl (he sock)
    | true =>
      simp only [Proxy.event, slotDisconnected] at h
      split at h
      · split at h
        · obtain rfl := Except.ok.inj h
          rfl
        · cases h
      · obtain rfl := Except.ok.inj h
        rfl
      · obtain rfl := Except.ok.inj h
        rfl

theorem run_lost {http : Http} {as : List Event} {s s' : Proxy}
    (has : ∀ sock, .disconnected sock false ∉ as) (hr : Runs.run (step http) s as = some s') :
    s'.lost = s.lost := by
  induction as generalizing s with
  | nil => exact congrArg Proxy.lost (Option.some.inj hr).symm
  | cons e as ih =>
    obtain ⟨t, ht, hr⟩ := Runs.run_cons.mp hr
    have hlost : t.lost = s.lost := by
      cases hevent : s.event http e with
      | error stop => simp [step, hevent, Except.toOption] at ht
      | ok u =>
        obtain rfl : u = t := by simpa [step, hevent, Except.toOption] using ht
        exact event_lost (fun sock heq => has sock (heq ▸ List.mem_cons_self)) hevent
    exact (ih (fun sock hmem => has sock (List.mem_cons_of_mem e hmem)) hr).trans hlost

/-- The proxy comes to `s`. -/
def Reaches (http : Http) (as : List Event) (s : Proxy) : Prop :=
  Runs.Meets (step http) Allowed .start as ∧ Runs.run (step http) .start as = some s

theorem Reaches.inv {http : Http} {as : List Event} {s : Proxy} (hr : Reaches http as s) : s.Inv :=
  (Runs.run_invariant_of_meets _ (splits sayNothing http).keeps ⟨Proxy.inv_start, idle_start _⟩
    (meets_settled hr.1 fun e _ => settled_sayNothing e) hr.2).1

/-- **Every channel that is open has one socket, or was lost with it.** -/
theorem proxy_channels (http : Http) {as : List Event} {s : Proxy} (hr : Reaches http as s) :
    (∀ chan, (Assoc.value s.chans chan).isSome = true ↔
      (∃ sock, Assoc.value s.mconns sock = some (some chan)) ∨ chan ∈ s.lost) ∧
    (∀ sock chan, Assoc.value s.mconns sock = some (some chan) → chan ∉ s.lost) ∧
    (∀ sock sock' chan, Assoc.value s.mconns sock = some (some chan) →
      Assoc.value s.mconns sock' = some (some chan) → sock = sock') ∧
    ((∀ sock, .disconnected sock false ∉ as) → s.lost = []) ∧
    ∀ e, Allowed s e → s.event http e ≠ .error .dangling := by
  have h := hr.inv
  refine ⟨h.open_iff, h.kept, h.owner, fun has => ?_, fun e he => ?_⟩
  · exact run_lost has hr.2
  · obtain ⟨t, ht, -⟩ | ⟨hstop, -⟩ :=
      answered_of_allowed http h (.inl fun _ _ => rfl : Idle sayNothing s) he (settled_sayNothing e)
    · rw [ht]
      simp
    · rw [hstop]
      simp

/-- A method for a byte, so that a chunk can be told from a request, and a host for each length. -/
def exampleHttp : Http where
  method ba := if ba.head? = some 71 then "GET".toList else []
  path ba := if ba.length = 1 then "a".toList else "b".toList
  url path := ⟨"http".toList, path, none⟩

theorem proxy_channels_example :
    ∃ s, Reaches exampleHttp
        [.newConnection 1, .newConnection 2, .readyRead 2 [71] .failed (.opened 7) 1] s ∧
      Assoc.value s.mconns 2 = some (some 7) ∧
      s.event exampleHttp (.disconnected 2 true) ≠ .error .dangling := by
  have hr : ∃ s, Reaches exampleHttp
      [.newConnection 1, .newConnection 2, .readyRead 2 [71] .failed (.opened 7) 1] s ∧
      Assoc.value s.mconns 2 = some (some 7) ∧ Allowed s (.disconnected 2 true) :=
    ⟨_, ⟨by decide, rfl⟩, by decide, by decide⟩
  obtain ⟨s, hr, hconn, hallowed⟩ := hr
  exact ⟨s, hr, hconn, (proxy_channels exampleHttp hr).2.2.2.2 _ hallowed⟩

theorem run_conn {http : Http} {as : List Event} {s : Proxy}
    (hm : Runs.Meets (step http) Allowed .start as) (hr : Runs.run (step http) .start as = some s)
    {δ : Type} {say : QString × Nat → δ} (has : ∀ e ∈ as, Settled say e) (sock : Sock) :
    Runs.run (Conn.step say http) .absent (as.filterMap (project sock)) = some (s.conn say sock) :=
  (splits say http).run_some ⟨Proxy.inv_start, idle_start say⟩ (meets_settled hm has) hr sock

/-- **Each connection goes its own way, in whatever order the events of all of them come**, but for
where its channel leads: that is its own doing as long as every call that opens a channel is
answered. -/
theorem proxy_connections (http : Http) {as : List Event}
    (hm : Runs.Meets (step http) Allowed .start as) :
    (∀ s, Runs.run (step http) .start as = some s → ∀ sock,
      Runs.run (Conn.step sayNothing http) .absent (as.filterMap (project sock)) =
        some (s.conn sayNothing sock)) ∧
    (Runs.run (step http) .start as = none ↔ ∃ sock,
      Runs.run (Conn.step sayNothing http) .absent (as.filterMap (project sock)) = none) ∧
    ((∀ e ∈ as, Settles e) → ∀ s, Runs.run (step http) .start as = some s → ∀ sock,
      Runs.run (Conn.step id http) .absent (as.filterMap (project sock)) = some (s.conn id sock)) := by
  have hnothing : ∀ e ∈ as, Settled sayNothing e := fun e _ => settled_sayNothing e
  refine ⟨fun s hr sock => run_conn hm hr hnothing sock, ⟨fun hr => ?_, ?_⟩, fun has s hr sock => ?_⟩
  · exact (splits sayNothing http).run_none ⟨Proxy.inv_start, idle_start _⟩
      (meets_settled hm hnothing) hr
  · rintro ⟨sock, hnone⟩
    cases hr : Runs.run (step http) .start as with
    | none => rfl
    | some s =>
      rw [run_conn hm hr hnothing sock] at hnone
      cases hnone
  · exact run_conn hm hr (fun e he => .inr (has e he)) sock

theorem proxy_connections_example :
    ∃ s, Runs.run (step exampleHttp) .start [.newConnection 1, .newConnection 2,
        .readyRead 2 [71] .failed (.opened 7) 1, .timeout fun _ => [79, 75]] = some s ∧
      s.conn id 2 = .linked [79, 75] ("a".toList, 80) [71] := by
  have hr : ∃ s, Runs.run (step exampleHttp) .start [.newConnection 1, .newConnection 2,
      .readyRead 2 [71] .failed (.opened 7) 1, .timeout fun _ => [79, 75]] = some s := ⟨_, rfl⟩
  obtain ⟨s, hr⟩ := hr
  have h := (proxy_connections exampleHttp (by decide)).2.2 (by decide) s hr 2
  exact ⟨s, hr, (Option.some.inj h).symm⟩

/-- The first browser asks for the host `a`, and both calls would block. The second one asks for `b`,
and is connected to `a`. -/
example : (Runs.run (step exampleHttp) .start [.newConnection 1, .newConnection 2,
    .readyRead 1 [71] .again .again 0, .readyRead 2 [71, 66] (.opened 7) .failed 2]).map
      (fun s => s.conn id 2) = some (.linked [] ("a".toList, 80) [71, 66]) := by decide

/-! ## A second request -/

section Again

variable {http : Http} {δ : Type} {say : QString × Nat → δ}

theorem step_linked {out received : Bytes} {dest : δ} {e : ConnEvent} {c : Conn δ}
    (he : e ≠ .disconnected) (h : (Conn.linked out dest received).step say http e = some c) :
    ∃ out' received', c = .linked out' dest received' := by
  cases e with
  | connected => exact ⟨_, _, (Option.some.inj h).symm⟩
  | disconnected => exact absurd rfl he
  | poll rbuf => exact ⟨_, _, (Option.some.inj h).symm⟩
  | chunk ba opened wlen =>
    simp only [Conn.step] at h
    split at h
    · split at h
      · cases h
      · exact ⟨_, _, (Option.some.inj h).symm⟩
    · exact ⟨_, _, (Option.some.inj h).symm⟩

theorem run_linked {out received : Bytes} {dest : δ} {es : List ConnEvent} {c : Conn δ}
    (hes : .disconnected ∉ es)
    (h : Runs.run (Conn.step say http) (.linked out dest received) es = some c) :
    ∃ out' received', c = .linked out' dest received' := by
  induction es generalizing out received with
  | nil => exact ⟨_, _, (Option.some.inj h).symm⟩
  | cons e es ih =>
    obtain ⟨c', hc', h⟩ := Runs.run_cons.mp h
    obtain ⟨he, hes⟩ := not_or.mp (List.mem_cons.not.mp hes)
    obtain ⟨out', received', rfl⟩ := step_linked (Ne.symm he) hc'
    exact ih hes h

theorem step_request {c c' : Conn δ} {ba : Bytes} {wlen : Int} (hreq : http.isRequest ba = true)
    (h : c.step say http (.chunk ba true wlen) = some c') :
    ∃ out dest received, c' = .linked out dest received := by
  cases c with
  | absent => cases h
  | waiting out =>
    simp only [Conn.step, hreq, if_true] at h
    exact ⟨_, _, _, (Option.some.inj h).symm⟩
  | linked out dest received =>
    simp only [Conn.step, hreq, if_true] at h
    cases h

theorem project_disconnected {sock : Sock} {e : Event} (h : project sock e = some .disconnected) :
    ∃ frees, e = .disconnected sock frees := by
  cases e with
  | newConnection k =>
    simp only [project] at h
    split at h <;> cases h
  | readyRead k ba first second wlen =>
    simp only [project] at h
    split at h <;> cases h
  | disconnected k frees =>
    simp only [project] at h
    split at h
    · next hk => exact ⟨frees, by rw [hk]⟩
    · cases h
  | timeout reads => cases h

end Again

/-- **A browser that sends a second request over its connection stops the program**, unless no
channel opens for it. -/
theorem second_request_stops (http : Http) {before mid after : List Event} {sock : Sock}
    {ba ba' : Bytes} {first second first' second' : Opening} {wlen wlen' : Int}
    (hm : Runs.Meets (step http) Allowed .start
      (before ++ .readyRead sock ba first second wlen ::
        (mid ++ .readyRead sock ba' first' second' wlen' :: after)))
    (hreq : http.isRequest ba = true) (hopen : (openedBy first second).isSome = true)
    (hreq' : http.isRequest ba' = true) (hopen' : (openedBy first' second').isSome = true)
    (hmid : ∀ frees, .disconnected sock frees ∉ mid) :
    Runs.run (step http) .start (before ++ .readyRead sock ba first second wlen ::
      (mid ++ .readyRead sock ba' first' second' wlen' :: after)) = none := by
  by_contra hne
  obtain ⟨s, hr⟩ := Option.ne_none_iff_exists'.mp hne
  -- The run of the one connection
  have hrun := run_conn hm hr (fun e _ => settled_sayNothing e) sock
  have hfirst : project sock (.readyRead sock ba first second wlen) =
      some (.chunk ba true wlen) := by simp [project, hopen]
  have hsecond : project sock (.readyRead sock ba' first' second' wlen') =
      some (.chunk ba' true wlen') := by simp [project, hopen']
  rw [List.filterMap_append, List.filterMap_cons_some hfirst, List.filterMap_append,
    List.filterMap_cons_some hsecond] at hrun
  obtain ⟨c₀, -, hrun⟩ := Runs.run_append.mp hrun
  obtain ⟨c₁, hc₁, hrun⟩ := Runs.run_cons.mp hrun
  obtain ⟨c₂, hc₂, hrun⟩ := Runs.run_append.mp hrun
  obtain ⟨c₃, hc₃, -⟩ := Runs.run_cons.mp hrun
  obtain ⟨out, dest, received, rfl⟩ := step_request hreq hc₁
  have hstays : .disconnected ∉ mid.filterMap (project sock) := by
    intro hmem
    obtain ⟨e, he, hproj⟩ := List.mem_filterMap.mp hmem
    obtain ⟨frees, rfl⟩ := project_disconnected hproj
    exact hmid frees he
  obtain ⟨out', received', rfl⟩ := run_linked hstays hc₂
  simp only [Conn.step, hreq', if_true] at hc₃
  cases hc₃

theorem second_request_stops_example :
    Runs.run (step exampleHttp) .start ([.newConnection 1] ++
      .readyRead 1 [71] (.opened 7) .failed 1 :: ([.timeout fun _ => [79, 75]] ++
        .readyRead 1 [71] (.opened 8) .failed 1 :: [])) = none :=
  second_request_stops exampleHttp (by decide) (by decide) rfl (by decide) rfl (by simp)

end NullFxp.SSHProxy
