import Mathlib.Algebra.BigOperators.Group.List.Basic
import Mathlib.Algebra.Ring.Nat
import NullFxp.LibFtp.Login

/-!
# A session of many operations

Each operation writes commands and reads replies. Which replies an operation is handed depends on
what was read before it: the control connection is a queue.
-/

open Text

namespace NullFxp.LibFtp

/-! ## Two control sockets that behave alike -/

/-- What an operation does with the control socket. -/
inductive Act where
  | send
  | read
  deriving DecidableEq

section Alike

variable {σ τ : Type} {io : Ctrl σ} {io' : Ctrl τ} {F : σ → τ → Prop} {α : Type} {acts : List Act}

def Ftp.withSock (ftp : Ftp σ) (sock : τ) : Ftp τ where
  sock := sock
  codec := ftp.codec
  data := ftp.data
  dirList2 := ftp.dirList2
  supportedCmds := ftp.supportedCmds
  pasvHost := ftp.pasvHost
  pasvPort := ftp.pasvPort
  useTLS := ftp.useTLS
  errnum := ftp.errnum
  errmsg := ftp.errmsg

/-- Used in this way, both sockets take every command and hand over the same replies; `F` is what
holds of them afterwards. -/
def Alike (io : Ctrl σ) (io' : Ctrl τ) (F : σ → τ → Prop) : List Act → σ → τ → Prop
  | [], s, t => F s t
  | .send :: acts, s, t => io.bytesAvailable s = 0 ∧ io'.bytesAvailable t = 0 ∧
      ∀ cmd, (io.send cmd s).1 = true ∧ (io'.send cmd t).1 = true ∧
        Alike io io' F acts (io.send cmd s).2 (io'.send cmd t).2
  | .read :: acts, s, t => ∃ ball s' t', io.readAll s = some (ball, s') ∧
      io'.readAll t = some (ball, t') ∧ Alike io io' F acts s' t'

theorem Alike.append {acts' : List Act} {s : σ} {t : τ} (h : Alike io io' F (acts ++ acts') s t) :
    Alike io io' (Alike io io' F acts') acts s t := by
  induction acts generalizing s t with
  | nil => exact h
  | cons act acts ih =>
    cases act with
    | send =>
      obtain ⟨hs, ht, h⟩ := h
      exact ⟨hs, ht, fun cmd => ⟨(h cmd).1, (h cmd).2.1, ih (h cmd).2.2⟩⟩
    | read =>
      obtain ⟨ball, s', t', hs, ht, h⟩ := h
      exact ⟨ball, s', t', hs, ht, ih h⟩

/-- The same result, and the same fields but for the socket. -/
def Same (F : σ → τ → Prop) (x : Option (α × Ftp σ)) (y : Option (α × Ftp τ)) : Prop :=
  Option.Rel (fun a b => a.1 = b.1 ∧ a.2.withSock () = b.2.withSock () ∧ F a.2.sock b.2.sock) x y

theorem same_some {r : α} {f : Ftp Unit} {s : σ} {t : τ} (h : F s t) :
    Same F (some (r, f.withSock s)) (some (r, f.withSock t)) := Option.Rel.some ⟨rfl, rfl, h⟩

theorem same_map {β : Type} (x : Option β) (val : β → α) {f : Ftp Unit} {s : σ} {t : τ}
    (h : F s t) :
    Same F (x.map fun r => (val r, f.withSock s)) (x.map fun r => (val r, f.withSock t)) := by
  cases x with
  | none => exact Option.Rel.none
  | some r => exact same_some h

theorem Same.map {β : Type} {x : Option (α × Ftp σ)} {y : Option (α × Ftp τ)} (h : Same F x y)
    (f : α → β) : Same F (x.map fun r => (f r.1, r.2)) (y.map fun r => (f r.1, r.2)) := by
  cases h with
  | none => exact Option.Rel.none
  | some h => exact Option.Rel.some ⟨congrArg f h.1, h.2⟩

theorem same_bind {β : Type} (x : Option β) {f : β → Option (α × Ftp σ)} {g : β → Option (α × Ftp τ)}
    (h : ∀ r, Same F (f r) (g r)) : Same F (x.bind f) (x.bind g) := by
  cases x with
  | none => exact Option.Rel.none
  | some r => exact h r

variable {cmd : Bytes} {failed : α} {reply : Bytes → Ftp σ → Option (α × Ftp σ)}
  {reply' : Bytes → Ftp τ → Option (α × Ftp τ)} {f : Ftp Unit} {s : σ} {t : τ}

theorem exchange_same (h : Alike io io' F (.send :: .read :: acts) s t)
    (hreply : ∀ ball s t, Alike io io' F acts s t →
      Same F (reply ball (f.withSock s)) (reply' ball (f.withSock t))) :
    Same F (exchange io cmd failed reply (f.withSock s))
      (exchange io' cmd failed reply' (f.withSock t)) := by
  obtain ⟨-, -, h⟩ := h
  obtain ⟨hs, ht, ball, s', t', hread, hread', h⟩ := h cmd
  simp only [exchange, Ftp.withSock, hs, ht, hread, hread', if_true, Option.bind_some]
  exact hreply ball s' t' h

theorem command_same (h : Alike io io' F (.send :: .read :: acts) s t)
    (hreply : ∀ ball s t, Alike io io' F acts s t →
      Same F (reply ball (f.withSock s)) (reply' ball (f.withSock t))) :
    Same F (command io cmd failed reply (f.withSock s))
      (command io' cmd failed reply' (f.withSock t)) := by
  have hs : io.bytesAvailable (f.withSock s).sock = 0 := h.1
  have ht : io'.bytesAvailable (f.withSock t).sock = 0 := h.2.1
  rw [command, command, if_pos hs, if_pos ht]
  exact exchange_same h hreply

theorem expectFirst_same (cmd : QString) (code : String) (h : Alike io io' F [.send, .read] s t) :
    Same F (expectFirst io cmd code (f.withSock s)) (expectFirst io' cmd code (f.withSock t)) :=
  command_same h fun _ _ _ h => same_map _ _ h

end Alike

/-! ## Operations -/

/-- What an operation returns, and what it sets its reference argument to. -/
inductive Out where
  | code (r : Int)
  | number (r : Int × Int)
  | text (r : Int × QString)
  deriving DecidableEq

/-- The operations that only use the control connection, or that read from the data connection
what has come there. -/
inductive Operation where
  | mkdir (path : QString)
  | rmdir (path : QString)
  | remove (path : QString)
  | rename (src dest : QString)
  | chdir (path : QString)
  | pwd (path : QString)
  | type (t : TransferType)
  | noop
  | system (type : QString)
  | size (path : QString) (siz : Int)
  | port (hostip : QString) (port : Nat)
  | passive
  | list (path : QString)
  | lista (path : QString)
  | get (fileName : QString)
  | put (fileName : QString)
  | putNoWaitResponse (fileName : QString)
  | swallowResponse

namespace Operation

def run {σ : Type} (io : Ctrl σ) (ftp : Ftp σ) : Operation → Option (Out × Ftp σ)
  | mkdir path => (LibFtp.mkdir io path ftp).map fun r => (.code r.1, r.2)
  | rmdir path => (LibFtp.rmdir io path ftp).map fun r => (.code r.1, r.2)
  | remove path => (LibFtp.remove io path ftp).map fun r => (.code r.1, r.2)
  | rename src dest => (LibFtp.rename io src dest ftp).map fun r => (.code r.1, r.2)
  | chdir path => (LibFtp.chdir io path ftp).map fun r => (.code r.1, r.2)
  | pwd path => (LibFtp.pwd io path ftp).map fun r => (.text r.1, r.2)
  | type t => (LibFtp.type io t ftp).map fun r => (.code r.1, r.2)
  | noop => (LibFtp.noop io ftp).map fun r => (.code r.1, r.2)
  | system t => (LibFtp.system io t ftp).map fun r => (.text r.1, r.2)
  | size path siz => (LibFtp.size io path siz ftp).map fun r => (.number r.1, r.2)
  | port hostip p => (LibFtp.port io hostip p ftp).map fun r => (.code r.1, r.2)
  | passive => (LibFtp.passive io ftp).map fun r => (.code r.1, r.2)
  | list path => (LibFtp.list io path ftp).map fun r => (.code r.1, r.2)
  | lista path => (LibFtp.lista io path ftp).map fun r => (.code r.1, r.2)
  | get fileName => (LibFtp.get io fileName ftp).map fun r => (.code r.1, r.2)
  | put fileName => (LibFtp.put io fileName ftp).map fun r => (.code r.1, r.2)
  | putNoWaitResponse fileName =>
    (LibFtp.putNoWaitResponse io fileName ftp).map fun r => (.code r.1, r.2)
  | swallowResponse => (LibFtp.swallowResponse io ftp).map fun r => (.code r.1, r.2)

def acts : Operation → List Act
  | rename _ _ => [.send, .read, .send, .read]
  | list _ => [.send, .read, .read]
  | lista _ => [.send, .read, .read]
  | putNoWaitResponse _ => [.send]
  | swallowResponse => [.read]
  | _ => [.send, .read]

end Operation

section Same

variable {σ τ : Type} {io : Ctrl σ} {io' : Ctrl τ} {F : σ → τ → Prop} {ftp : Ftp Unit} {s : σ} {t : τ}

theorem listData_withSock (ball : Bytes) :
    listData ball (ftp.withSock s) = (listData ball ftp).map fun ftp => ftp.withSock s := by
  unfold listData
  cases closingWord ball with
  | none => rfl
  | some word => cases h : expect "150" word <;> simp [h, Ftp.withSock]

theorem listData_same {α : Type} {ball : Bytes} {next : Ftp σ → Option (α × Ftp σ)}
    {next' : Ftp τ → Option (α × Ftp τ)}
    (h : ∀ ftp : Ftp Unit, Same F (next (ftp.withSock s)) (next' (ftp.withSock t))) :
    Same F (listData ball (ftp.withSock s) >>= next) (listData ball (ftp.withSock t) >>= next') := by
  rw [listData_withSock, listData_withSock]
  simp only [Option.bind_eq_bind, Option.bind_map]
  exact same_bind _ h

theorem list_same (path : QString) (h : Alike io io' F [.send, .read, .read] s t) :
    Same F (list io path (ftp.withSock s)) (list io' path (ftp.withSock t)) := by
  refine command_same (f := { ftp with dirList2 := [] }) h fun ball s t h => ?_
  obtain ⟨ball', s', t', hs, ht, h⟩ := h
  refine listData_same fun ftp => ?_
  simp only [Ftp.withSock, hs, ht, Option.bind_eq_bind, Option.bind_some]
  exact same_bind _ fun word => same_bind _ fun r => same_some h

theorem lista_same (path : QString) (h : Alike io io' F [.send, .read, .read] s t) :
    Same F (lista io path (ftp.withSock s)) (lista io' path (ftp.withSock t)) := by
  refine command_same (f := { ftp with dirList2 := [] }) h fun ball s t h => ?_
  obtain ⟨ball', s', t', hs, ht, h⟩ := h
  refine listData_same fun ftp => ?_
  simp only [Ftp.withSock, hs, ht, Option.bind_eq_bind, Option.bind_some]
  split
  · exact same_some h
  · exact same_bind _ fun word => same_bind _ fun r => same_some h

theorem setError_withSock (okno : Int) (msg : QString) :
    setError okno msg (ftp.withSock s) = (setError okno msg ftp).withSock s := by
  unfold setError
  split
  · rfl
  · split
    · rfl
    · split <;> rfl

/-- **An operation cannot tell two such sockets apart.** -/
theorem run_same (c : Operation) (h : Alike io io' F c.acts s t) :
    Same F (c.run io (ftp.withSock s)) (c.run io' (ftp.withSock t)) := by
  cases c with
  | mkdir path => exact (expectFirst_same _ _ h).map _
  | rmdir path => exact (expectFirst_same _ _ h).map _
  | remove path =>
    refine Same.map (command_same h fun ball s t h => ?_) _
    exact same_some h
  | rename src dest =>
    refine Same.map (command_same h fun ball s t h => ?_) _
    refine same_bind _ fun _ => exchange_same h fun ball s t h => ?_
    exact same_map _ _ h
  | chdir path =>
    refine Same.map (command_same h fun ball s t h => ?_) _
    exact same_map _ _ h
  | pwd path =>
    refine Same.map (command_same h fun ball s t h => ?_) _
    exact same_bind _ fun _ => same_bind _ fun _ => same_bind _ fun _ => same_some h
  | type ty => exact (expectFirst_same _ _ h).map _
  | noop => exact (expectFirst_same _ _ h).map _
  | system ty =>
    refine Same.map (command_same h fun ball s t h => ?_) _
    exact same_map _ _ h
  | size path siz =>
    refine Same.map (command_same h fun ball s t h => ?_) _
    exact same_map _ _ h
  | port hostip p =>
    refine Same.map (command_same h fun ball s t h => ?_) _
    exact same_some h
  | passive =>
    refine Same.map (command_same h fun ball s t h => ?_) _
    split
    · exact same_some (f := { ftp with pasvHost := _, pasvPort := _ }) h
    · exact same_some h
  | list path => exact (list_same path h).map _
  | lista path => exact (lista_same path h).map _
  | get fileName =>
    refine Same.map (command_same h fun ball s t h => ?_) _
    exact same_bind _ fun _ => same_bind _ fun _ => same_some h
  | put fileName =>
    refine Same.map (exchange_same h fun ball s t h => ?_) _
    rw [setError_withSock, setError_withSock]
    exact same_some h
  | putNoWaitResponse fileName =>
    obtain ⟨-, -, h⟩ := h
    obtain ⟨hs, ht, h⟩ := h (toAscii (cmdLine "STOR" fileName))
    simp only [Operation.run, putNoWaitResponse, Ftp.withSock, hs, ht]
    exact same_some h
  | swallowResponse =>
    obtain ⟨ball, s', t', hs, ht, h⟩ := h
    simp only [Operation.run, swallowResponse, Ftp.withSock, hs, ht, Option.map_some]
    exact same_some h

theorem Same.bind {α β : Type} {G : σ → τ → Prop} {x : Option (α × Ftp σ)} {y : Option (α × Ftp τ)}
    {f : α × Ftp σ → Option (β × Ftp σ)} {g : α × Ftp τ → Option (β × Ftp τ)} (h : Same G x y)
    (hnext : ∀ r (ftp : Ftp Unit) s t, G s t → Same F (f (r, ftp.withSock s)) (g (r, ftp.withSock t))) :
    Same F (x.bind f) (y.bind g) := by
  cases h with
  | none => exact Option.Rel.none
  | @some a b h =>
    obtain ⟨r, a⟩ := a
    obtain ⟨r', b⟩ := b
    obtain ⟨rfl, hfields, hG⟩ := h
    have hb : b = (a.withSock ()).withSock b.sock := by
      rw [hfields]
      rfl
    have hnext := hnext r (a.withSock ()) a.sock b.sock hG
    rw [← hb] at hnext
    exact hnext

theorem Same.bind_eq {α β : Type} {x : Option (α × Ftp σ)} {y : Option (α × Ftp τ)}
    {f : α × Ftp σ → Option β} {g : α × Ftp τ → Option β} (h : Same F x y)
    (hnext : ∀ r (ftp : Ftp Unit) s t, F s t → f (r, ftp.withSock s) = g (r, ftp.withSock t)) :
    x.bind f = y.bind g := by
  cases h with
  | none => rfl
  | @some a b h =>
    obtain ⟨r, a⟩ := a
    obtain ⟨r', b⟩ := b
    obtain ⟨rfl, hfields, hF⟩ := h
    have hb : b = (a.withSock ()).withSock b.sock := by
      rw [hfields]
      rfl
    have hnext := hnext r (a.withSock ()) a.sock b.sock hF
    rw [← hb] at hnext
    exact hnext

end Same

/-! ## Sessions -/

def Out.ret : Out → Int
  | .code r => r
  | .number r => r.1
  | .text r => r.1

/-- A call, and whether `assert(iret == 0)` follows. -/
structure Use where
  call : Operation
  asserted : Bool

def Use.passes (u : Use) (out : Out) : Bool := !u.asserted || out.ret == 0

def session {σ : Type} (io : Ctrl σ) : List Use → Ftp σ → Option (List Out × Ftp σ)
  | [], ftp => some ([], ftp)
  | u :: uses, ftp =>
    (u.call.run io ftp).bind fun (out, ftp) =>
      if u.passes out then (session io uses ftp).map fun (outs, ftp) => (out :: outs, ftp)
      else none

def actsOf (uses : List Use) : List Act := uses.flatMap fun u => u.call.acts

theorem session_same {σ τ : Type} {io : Ctrl σ} {io' : Ctrl τ} {F : σ → τ → Prop} (uses : List Use)
    {ftp : Ftp Unit} {s : σ} {t : τ} (h : Alike io io' F (actsOf uses) s t) :
    Same F (session io uses (ftp.withSock s)) (session io' uses (ftp.withSock t)) := by
  induction uses generalizing ftp s t with
  | nil => exact same_some h
  | cons u uses ih =>
    rw [actsOf, List.flatMap_cons] at h
    unfold session
    refine Same.bind (run_same u.call h.append) fun r ftp s t h => ?_
    simp only
    split
    · exact (ih h).map _
    · exact Option.Rel.none

/-- How many replies are read. -/
def reads (uses : List Use) : Nat := (actsOf uses).count .read

/-- Each call is handed as many replies as it reads. -/
def handOut : List Use → List Bytes → Ftp Unit → Option (List Out × Ftp Unit)
  | [], _, ftp => some ([], ftp)
  | u :: uses, replies, ftp =>
    (u.call.run scripted (ftp.withSock ⟨[], replies.take (u.call.acts.count .read)⟩)).bind
      fun (out, next) =>
        if u.passes out then
          (handOut uses (replies.drop (u.call.acts.count .read)) (next.withSock ())).map
            fun (outs, ftp) => (out :: outs, ftp)
        else none

theorem reads_cons (u : Use) (uses : List Use) :
    reads (u :: uses) = u.call.acts.count .read + reads uses := by
  rw [reads, reads, actsOf, List.flatMap_cons, List.count_append]
  rfl

theorem alike_scripted (acts : List Act) (sent sent' : List Bytes) (xs ys : List Bytes)
    (h : acts.count .read = xs.length) :
    Alike scripted scripted (fun s _ => s.answers = ys) acts ⟨sent, xs ++ ys⟩ ⟨sent', xs⟩ := by
  induction acts generalizing sent sent' xs with
  | nil =>
    obtain rfl : xs = [] := List.length_eq_zero_iff.mp h.symm
    rfl
  | cons act acts ih =>
    cases act with
    | send => exact ⟨rfl, rfl, fun cmd => ⟨rfl, rfl, ih _ _ xs (by simpa using h)⟩⟩
    | read =>
      cases xs with
      | nil => simp at h
      | cons x xs => exact ⟨x, _, _, rfl, rfl, ih _ _ xs (by simpa using h)⟩

/-- What is left when the socket is not looked at. -/
def withoutSock {σ : Type} (r : List Out × Ftp σ) : List Out × Ftp Unit := (r.1, r.2.withSock ())

/-- **A session on a queue of replies** hands each call the replies that are next. -/
theorem session_scripted (uses : List Use) (sent replies : List Bytes) (ftp : Ftp Unit)
    (h : reads uses ≤ replies.length) :
    (session scripted uses (ftp.withSock ⟨sent, replies⟩)).map withoutSock =
      handOut uses replies ftp := by
  induction uses generalizing sent replies ftp with
  | nil => rfl
  | cons u uses ih =>
    rw [reads_cons] at h
    have htake : u.call.acts.count .read = (replies.take (u.call.acts.count .read)).length := by
      rw [List.length_take]
      omega
    have halike := alike_scripted u.call.acts sent [] _ (replies.drop (u.call.acts.count .read)) htake
    rw [List.take_append_drop] at halike
    unfold session handOut
    rw [Option.map_bind]
    refine (run_same u.call halike).bind_eq fun r ftp s t hleft => ?_
    have ih := ih s.sent (replies.drop (u.call.acts.count .read)) ftp (by rw [List.length_drop]; omega)
    have hs : s = ⟨s.sent, replies.drop (u.call.acts.count .read)⟩ := by rw [← hleft]
    simp only [Function.comp_apply]
    split
    · show ((session scripted uses _).map _).map withoutSock = (handOut uses _ ftp).map _
      rw [hs, ← ih, Option.map_map, Option.map_map]
      rfl
    · rfl

theorem handOut_append (uses uses' : List Use) (replies : List Bytes) (ftp : Ftp Unit) :
    handOut (uses ++ uses') replies ftp =
      (handOut uses replies ftp).bind fun (outs, next) =>
        (handOut uses' (replies.drop (reads uses)) next).map fun (outs', ftp) =>
          (outs ++ outs', ftp) := by
  induction uses generalizing replies ftp with
  | nil => simp [handOut, reads, actsOf]
  | cons u uses ih =>
    rw [List.cons_append, handOut, handOut, Option.bind_assoc]
    congr 1
    funext r
    simp only
    split
    · rw [ih, reads_cons, ← List.drop_drop, Option.map_bind, Option.bind_map]
      congr 1
      funext r'
      simp [Option.map_map, Function.comp_def]
    · rfl

theorem handOut_take (uses : List Use) (replies : List Bytes) (ftp : Ftp Unit) {n : Nat}
    (h : reads uses ≤ n) : handOut uses (replies.take n) ftp = handOut uses replies ftp := by
  induction uses generalizing replies ftp n with
  | nil => rfl
  | cons u uses ih =>
    rw [reads_cons] at h
    unfold handOut
    rw [List.take_take, Nat.min_eq_left (by omega), List.drop_take]
    congr 1
    funext r
    simp only
    rw [ih _ _ (by omega)]

/-! ## The connection to a server -/

/-- The control socket, and the answers to the commands that are still to be written. -/
structure Wire where
  sock : Sock
  coming : List (List Answer)

/-- Every reply of the server comes in packets of its own, and not before the next wait. -/
def wire : Ctrl Wire where
  bytesAvailable w := w.sock.unread.length
  send _ w :=
    (true, ⟨{ w.sock with arrivals := w.sock.arrivals ++ (w.coming.headD []).flatMap Answer.arrivals },
      w.coming.tail⟩)
  readAll w := (readAll w.sock).map fun r => (r.1, { w with sock := r.2 })
  readyRead w :=
    match w.sock.arrivals with
    | .data b more :: as => (some (w.sock.unread ++ b :: more), { w with sock := ⟨[], as⟩ })
    | .timeout :: as => (none, { w with sock := ⟨w.sock.unread, as⟩ })
    | [] => (none, w)

/-- No reply is read before it is sent: `n` replies are there, and the next commands bring so many. -/
def Covered : List Act → Nat → List Nat → Prop
  | [], _, _ => True
  | .send :: acts, n, replies => Covered acts (n + replies.headD 0) replies.tail
  | .read :: acts, n, replies => 0 < n ∧ Covered acts (n - 1) replies

theorem Covered.count_le {acts : List Act} {n : Nat} {replies : List Nat} (h : Covered acts n replies) :
    acts.count .read ≤ n + replies.sum := by
  induction acts generalizing n replies with
  | nil => simp
  | cons act acts ih =>
    cases act with
    | send =>
      have := ih h
      cases replies with
      | nil => simpa using this
      | cons g replies =>
        simp at this ⊢
        omega
    | read =>
      have := ih h.2
      have := h.1
      simp
      omega

theorem readAll_first (a : Answer) (h : a.reply.Readable) (later : List Arrival) :
    readAll ⟨[], a.arrivals ++ later⟩ = some (a.reply.bytes, ⟨[], later⟩) := by
  have hfeed : feed [] (delivered a.packets) = some (.ended (a.reply.bytes.map latin1) []) := by
    rw [a.delivers]
    simpa using a.reply.feed_readable h []
  obtain ⟨⟨unread, arrivals⟩, rest, hs, harr, hsuf, hu⟩ :=
    readAllByEndSymbol_ended (n := 0 + a.waits) a.no_timeout later hfeed
  obtain ⟨rfl, hrest⟩ := List.append_eq_nil_iff.mp hu
  have hnil : rest = [] := by
    cases rest with
    | nil => rfl
    | cons p ps =>
      cases p with
      | data b more => simp [delivered, Arrival.bytes] at hrest
      | timeout => exact absurd (hsuf.subset (List.mem_cons_self ..)) a.no_timeout
  rw [hnil, List.nil_append] at harr
  obtain rfl : arrivals = later := harr
  rw [toAscii_map_latin1] at hs
  rw [readAll, Answer.arrivals, List.append_assoc,
    readAllByEndSymbol_timeouts (by have := a.waits_le; omega), hs]

/-- **The connection is a queue of replies.** By induction on what is done with it: what was sent
and not read stands in the socket, a reply after the other. -/
theorem alike_wire (acts : List Act) (pending : List Answer) (coming : List (List Answer))
    (sent : List Bytes) (h : ∀ a ∈ pending ++ coming.flatten, a.reply.Readable)
    (hcovered : Covered acts pending.length (coming.map List.length)) :
    Alike wire scripted (fun _ _ => True) acts ⟨⟨[], pending.flatMap Answer.arrivals⟩, coming⟩
      ⟨sent, (pending ++ coming.flatten).map fun a => a.reply.bytes⟩ := by
  induction acts generalizing pending coming sent with
  | nil => trivial
  | cons act acts ih =>
    cases act with
    | send =>
      refine ⟨rfl, rfl, fun cmd => ⟨rfl, rfl, ?_⟩⟩
      cases coming with
      | nil =>
        have := ih pending [] (sent ++ [cmd]) h (by simpa [Covered] using hcovered)
        simpa [wire, scripted] using this
      | cons g coming =>
        have := ih (pending ++ g) coming (sent ++ [cmd]) (by simpa using h)
          (by simpa [Covered] using hcovered)
        simpa [wire, scripted] using this
    | read =>
      obtain ⟨hpos, hcovered⟩ := hcovered
      cases pending with
      | nil => simp at hpos
      | cons a pending =>
        have hread : readAll ⟨[], (a :: pending).flatMap Answer.arrivals⟩ =
            some (a.reply.bytes, ⟨[], pending.flatMap Answer.arrivals⟩) := by
          rw [List.flatMap_cons, readAll_first a (h a (by simp))]
        refine ⟨a.reply.bytes, ⟨⟨[], pending.flatMap Answer.arrivals⟩, coming⟩, _, ?_, rfl,
          ih pending coming sent (fun b hb => h b (by simp at hb ⊢; tauto)) hcovered⟩
        simp only [wire, hread, Option.map_some]

theorem session_wire (uses : List Use) (late : List Answer) (coming : List (List Answer))
    (ftp : Ftp Unit) (h : ∀ a ∈ late ++ coming.flatten, a.reply.Readable)
    (hcovered : Covered (actsOf uses) late.length (coming.map List.length)) :
    (session wire uses (ftp.withSock ⟨⟨[], late.flatMap Answer.arrivals⟩, coming⟩)).map withoutSock =
      (session scripted uses (ftp.withSock
        ⟨[], (late ++ coming.flatten).map fun a => a.reply.bytes⟩)).map withoutSock := by
  rw [Option.map_eq_bind, Option.map_eq_bind]
  exact (session_same uses (alike_wire _ late coming [] h hcovered)).bind_eq fun _ _ _ _ _ => rfl

theorem reads_le_of_covered {uses : List Use} (late : List Answer) {coming : List (List Answer)}
    (h : Covered (actsOf uses) late.length (coming.map List.length)) :
    reads uses ≤ ((late ++ coming.flatten).map fun a => a.reply.bytes).length := by
  rw [List.length_map, List.length_append, List.length_flatten]
  exact h.count_le

end NullFxp.LibFtp
