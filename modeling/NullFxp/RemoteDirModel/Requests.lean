import NullFxp.RemoteDirModel.Reachable

/-!
# The model and its retriever

The UI thread owns the model, and the retriever thread takes commands from the queue. What
the retriever emits reaches the UI thread later, in order. The views, the retriever and the
deliveries interleave in any way.
-/

open Forest RowMap Runs

namespace NullFxp.RemoteDirModel

/-! ## What the retriever reads -/

inductive Protocol where
  | sftp
  | ftp
  deriving DecidableEq

/-- The `prevFlag` of a new item: only the FTP retriever sets it. -/
def Protocol.prevFlag : Protocol → UInt8
  | .sftp => 0xFF
  | .ftp => 0

/-- The row of a new item, which the model does not use. -/
def Protocol.onRow (i : Nat) : Protocol → Int
  | .sftp => -1
  | .ftp => short i

/-- `retrFlag` of a new item: what may be a directory has no data yet. -/
def entryFlag (nd : NetDirNode) : UInt8 :=
  if nd.isDir ∨ nd.isSymLink then popNoNeedNoData else popNewest

/-- The new item that `retrive_dir` makes for the entry number `i` of the directory. -/
def newItem (proto : Protocol) (parentItem : NetDirNode) (i : Nat) (name : QString)
    (attrib : Attrib) : NetDirNode :=
  let item : NetDirNode := { NetDirNode.new with
    prevFlag := proto.prevFlag
    onRow := proto.onRow i
    fullPath := childPath parentItem.fullPath name
    fileName := name
    attrib := attrib }
  { item with retrFlag := entryFlag item }

/-- `retrive_dir`: all entries but the directory itself and its parent. -/
def retriveDir (proto : Protocol) (parentItem : NetDirNode) (entries : List (QString × Attrib)) :
    List NetDirNode :=
  (entries.filter fun e => e.1 ≠ ['.'] ∧ e.1 ≠ ['.', '.']).mapIdx fun i e =>
    newItem proto parentItem i e.1 e.2

/-! ## The system -/

inductive Event where
  | retrived (parentItem persisIndex : Nat) (newNodes : List NetDirNode)
  | finished (parentItem persisIndex : Nat) (cmd : Command) (status : Int)

structure System where
  model : Model
  events : List Event

namespace Model

def slotRemoteDirNodeClicked (m : Model) (p : Nat) : Option Model := do
  let clickedItem ← m.nodes p
  if clickedItem.retrFlag = popNoNeedWithData then m.addNode p p else some m

/-- The index that the persistent index of `n` gives, in column `column`. -/
def lookUp (m : Model) (n : Nat) (column : Int) : Option ModelIndex := do
  let persis := m.persistent n
  m.index persis.row column (← m.parent persis)

/-- `execute_command_finished`. Only the answer for a link changes something. -/
def executeCommandFinished (m : Model) (parentItem persisIndex : Nat) (cmd : Command)
    (status : Int) : Option Model :=
  if cmd = .realpath then do
    let nd ← m.nodes parentItem
    if status = 0 then
      let m := m.set parentItem { nd with linkToDir := true }
      let _ ← m.lookUp persisIndex 0
      let _ ← m.lookUp persisIndex 3
      if nd.retrFlag = popNoNeedNoData then m.addNode parentItem persisIndex else some m
    else
      let m := m.set parentItem { nd with prevFlag := nd.retrFlag, retrFlag := popNewest }
      let _ ← m.lookUp persisIndex 0
      let _ ← m.lookUp persisIndex 3
      some m
  else
    some m

end Model

/-- What can happen next: the views ask or tell the model something, the retriever runs the
first command of the queue, with what the server answers, or the UI thread handles a signal. -/
inductive Action where
  | query (p : Nat)
  | click (p : Nat)
  | exec (p : Nat) (cmd : Command) (params : QString)
  | rename (n : Nat) (value : QString)
  | work (entries : List (QString × Attrib)) (status : Int)
  | deliver

/-- The commands that the views send through `slot_execute_command`. -/
def Command.FromView (cmd : Command) : Prop :=
  cmd = .mkdir ∨ cmd = .rmdir ∨ cmd = .remove ∨ cmd = .realpath

instance (cmd : Command) : Decidable cmd.FromView := inferInstanceAs (Decidable (_ ∨ _ ∨ _ ∨ _))

namespace System

/-- The retriever runs `cmd`, and takes it from the queue. All but `READDIR` and `REALPATH`
change the directory, which is then listed again. -/
def work (proto : Protocol) (s : System) (cmd : QueueElem) (rest : List QueueElem)
    (entries : List (QString × Attrib)) (status : Int) : Option System := do
  let parentItem ← s.model.nodes cmd.parentItem
  let finished := Event.finished cmd.parentItem cmd.persisIndex cmd.cmd status
  let m := { s.model with commandQueue := rest }
  if cmd.cmd = .readdir then
    let listing := Event.retrived cmd.parentItem cmd.persisIndex (retriveDir proto parentItem entries)
    some ⟨m, s.events ++ [listing, finished]⟩
  else if cmd.cmd = .realpath ∨ cmd.cmd = .keepAlive then
    some ⟨m, s.events ++ [finished]⟩
  else do
    let m ← m.addNode cmd.parentItem cmd.persisIndex
    some ⟨m, s.events ++ [finished]⟩

def handle (m : Model) : Event → Option Model
  | .retrived parentItem persisIndex newNodes =>
    m.slotRemoteDirNodeRetrived parentItem persisIndex newNodes
  | .finished parentItem persisIndex cmd status =>
    m.executeCommandFinished parentItem persisIndex cmd status

def step (proto : Protocol) (s : System) : Action → Option System
  | .query p => do
    let _ ← s.model.nodes p
    let (_, m) ← s.model.rowCount (s.model.persistent p)
    some { s with model := m }
  | .click p => do
    let m ← s.model.slotRemoteDirNodeClicked p
    some { s with model := m }
  | .exec p cmd params => do
    let _ ← s.model.nodes p
    guard cmd.FromView
    some { s with model := s.model.slotExecuteCommand p p cmd params }
  | .rename n value => do
    let nd ← s.model.nodes n
    guard (nd.pNode ≠ none)
    let m ← s.model.setDataString (s.model.persistent n) value
    some { s with model := m }
  | .work entries status =>
    match s.model.commandQueue with
    | [] => none
    | cmd :: rest => s.work proto cmd rest entries status
  | .deliver =>
    match s.events with
    | [] => none
    | e :: events => (handle s.model e).map fun m => ⟨m, events⟩

end System

def runFrom (proto : Protocol) (home : QString) (as : List Action) : Option System :=
  (Model.empty.setUserHomePath home).bind fun m₀ => run (System.step proto) ⟨m₀, []⟩ as

theorem runFrom_any (proto : Protocol) (home : QString) (as : List Action) (test : System → Bool)
    (h : (runFrom proto home as).any test = true) : ∃ m₀ s,
      Model.empty.setUserHomePath home = some m₀ ∧ run (System.step proto) ⟨m₀, []⟩ as = some s ∧
        test s = true := by
  obtain ⟨s, hs, htest⟩ := (Option.any_eq_true _ _).mp h
  obtain ⟨m₀, h0, hr⟩ := Option.bind_eq_some_iff.mp hs
  exact ⟨m₀, s, h0, hr, htest⟩

/-! ## What a step can do -/

def Model.withRequest (m : Model) (p : Nat) (pd : NetDirNode) : Model :=
  { m.set p pd.updating with commandQueue := m.commandQueue ++ [⟨p, p, .readdir, []⟩] }

def Model.withRename (m : Model) (n : Nat) (nd : NetDirNode) (q : Nat)
    (path value params : QString) : Model :=
  (m.set n { nd with fullPath := path, fileName := value }).slotExecuteCommand q q .rename params

/-- Everything that a step can do when the tree is well formed and every command and signal has
the index of its own node. -/
inductive Moved (proto : Protocol) (s : System) : Action → System → Prop where
  /-- A query that needs no listing, a click or a rename that changes nothing. -/
  | idle {a : Action} (h : a ≠ .deliver) : Moved proto s a s
  | ask {a : Action} {p : Nat} {pd : NetDirNode} (h : a ≠ .deliver) (hp : s.model.nodes p = some pd)
    (hflag : ∀ x, a = .query x → x = p ∧ WantsListing pd.retrFlag) :
    Moved proto s a { s with model := s.model.withRequest p pd }
  | exec {p : Nat} {pd : NetDirNode} {cmd : Command} {params : QString}
    (hp : s.model.nodes p = some pd) (hcmd : cmd.FromView) :
    Moved proto s (.exec p cmd params) { s with model := s.model.slotExecuteCommand p p cmd params }
  | rename {n q : Nat} {nd qd : NetDirNode} {value params path : QString}
    (hn : s.model.nodes n = some nd) (hq : s.model.nodes q = some qd) :
    Moved proto s (.rename n value) { s with model := s.model.withRename n nd q path value params }
  | list {entries : List (QString × Attrib)} {status : Int} {p : Nat} {pd : NetDirNode}
    {params : QString} {rest : List QueueElem}
    (hq : s.model.commandQueue = ⟨p, p, .readdir, params⟩ :: rest) (hp : s.model.nodes p = some pd) :
    Moved proto s (.work entries status) ⟨{ s.model with commandQueue := rest },
      s.events ++ [.retrived p p (retriveDir proto pd entries), .finished p p .readdir status]⟩
  | resolve {entries : List (QString × Attrib)} {status : Int} {p : Nat} {pd : NetDirNode}
    {params : QString} {cmd : Command} {rest : List QueueElem}
    (hq : s.model.commandQueue = ⟨p, p, cmd, params⟩ :: rest) (hp : s.model.nodes p = some pd)
    (hcmd : cmd = .realpath ∨ cmd = .keepAlive) :
    Moved proto s (.work entries status) ⟨{ s.model with commandQueue := rest },
      s.events ++ [.finished p p cmd status]⟩
  | change {entries : List (QString × Attrib)} {status : Int} {p : Nat} {pd : NetDirNode}
    {params : QString} {cmd : Command} {rest : List QueueElem}
    (hq : s.model.commandQueue = ⟨p, p, cmd, params⟩ :: rest) (hp : s.model.nodes p = some pd)
    (hcmd : cmd ≠ .readdir ∧ cmd ≠ .realpath ∧ cmd ≠ .keepAlive) :
    Moved proto s (.work entries status)
      ⟨Model.withRequest { s.model with commandQueue := rest } p pd,
        s.events ++ [.finished p p cmd status]⟩
  | refresh {p : Nat} {pd : NetDirNode} {l : List Nat} {es : List NetDirNode} {events : List Event}
    {m' : Model} (he : s.events = .retrived p p es :: events) (hp : s.model.nodes p = some pd)
    (hl : Children pd l) (hr : Refreshed s.model m' p pd l es) : Moved proto s .deliver ⟨m', events⟩
  /-- The answer to a command, or to a link whose directory is known. -/
  | done {p : Nat} {cmd : Command} {status : Int} {events : List Event}
    (he : s.events = .finished p p cmd status :: events) (hcmd : cmd ≠ .realpath) :
    Moved proto s .deliver { s with events := events }
  | linked {p : Nat} {pd : NetDirNode} {events : List Event}
    (he : s.events = .finished p p .realpath 0 :: events) (hp : s.model.nodes p = some pd)
    (hflag : pd.retrFlag ≠ popNoNeedNoData) :
    Moved proto s .deliver ⟨s.model.set p { pd with linkToDir := true }, events⟩
  | follow {p : Nat} {pd : NetDirNode} {events : List Event}
    (he : s.events = .finished p p .realpath 0 :: events) (hp : s.model.nodes p = some pd) :
    Moved proto s .deliver ⟨(s.model.set p { pd with linkToDir := true }).withRequest p
      { pd with linkToDir := true }, events⟩
  | broken {p : Nat} {pd : NetDirNode} {status : Int} {events : List Event}
    (he : s.events = .finished p p .realpath status :: events) (hstatus : status ≠ 0)
    (hp : s.model.nodes p = some pd) :
    Moved proto s .deliver
      ⟨s.model.set p { pd with prevFlag := pd.retrFlag, retrFlag := popNewest }, events⟩

/-- The tree is well formed, and commands and signals name one node each. -/
structure Consistent (s : System) : Prop where
  wellFormed : WellFormed s.model
  queue : ∀ q ∈ s.model.commandQueue, q.persisIndex = q.parentItem
  retrived : ∀ p i es, Event.retrived p i es ∈ s.events → i = p
  finished : ∀ p i cmd status, Event.finished p i cmd status ∈ s.events → i = p

theorem queried_eq {m : Model} {p : Nat} {pd : NetDirNode} (hp : m.nodes p = some pd) :
    m.queried p pd = if WantsListing pd.retrFlag then m.withRequest p pd else m := by
  rw [Model.queried, asked, NetDirNode.afterQuery]
  split
  · rfl
  · rw [List.append_nil]
    congr 1
    rw [Model.set, ← hp, Function.update_eq_self]

theorem setDataString_cases {m m' : Model} (hm : WellFormed m) {n : Nat} {nd : NetDirNode}
    (hn : m.nodes n = some nd) {value : QString}
    (h : m.setDataString (m.persistent n) value = some m') :
    m' = m ∨ ∃ q qd path params, m.nodes q = some qd ∧ m' = m.withRename n nd q path value params := by
  obtain ⟨hidx, -, i, hpar, -⟩ := persistent_spec hm hn
  rw [Model.setDataString] at h
  split at h
  · simp only [hpar, hidx.2, hn, Option.bind_eq_bind, Option.bind_some, Option.bind_eq_some_iff] at h
    obtain ⟨-, -, h⟩ := h
    split at h
    · exact Or.inl (Option.some.inj h).symm
    · simp only [Option.bind_eq_some_iff] at h
      obtain ⟨q, -, qd, hq, h⟩ := h
      exact Or.inr ⟨q, qd, _, _, hq, (Option.some.inj h).symm⟩
  · exact Or.inl (Option.some.inj h).symm

theorem executeCommandFinished_moved {proto : Protocol} {s : System} {p : Nat} {cmd : Command}
    {status : Int} {events : List Event} {m' : Model}
    (he : s.events = .finished p p cmd status :: events)
    (h : s.model.executeCommandFinished p p cmd status = some m') :
    Moved proto s .deliver ⟨m', events⟩ := by
  rw [Model.executeCommandFinished] at h
  split at h
  · rename_i hcmd
    subst hcmd
    simp only [Option.bind_eq_bind, Option.bind_eq_some_iff] at h
    obtain ⟨pd, hp, h⟩ := h
    split at h
    · rename_i hstatus
      subst hstatus
      simp only [Option.bind_eq_some_iff] at h
      obtain ⟨-, -, -, -, h⟩ := h
      split at h
      · rw [addNode_eq (Model.set_nodes_self ..)] at h
        obtain rfl := Option.some.inj h
        exact .follow he hp
      · obtain rfl := Option.some.inj h
        exact .linked he hp (by assumption)
    · simp only [Option.bind_eq_some_iff] at h
      obtain ⟨-, -, -, -, h⟩ := h
      obtain rfl := Option.some.inj h
      exact .broken he (by assumption) hp
  · obtain rfl := Option.some.inj h
    exact .done he (by assumption)

theorem work_moved {proto : Protocol} {s s' : System} (hs : Consistent s) {cmd : QueueElem}
    {rest : List QueueElem} {entries : List (QString × Attrib)} {status : Int}
    (hq : s.model.commandQueue = cmd :: rest)
    (h : s.work proto cmd rest entries status = some s') :
    Moved proto s (.work entries status) s' := by
  obtain ⟨p, i, c, params⟩ := cmd
  obtain rfl : i = p := hs.queue _ (by rw [hq]; exact List.mem_cons_self)
  simp only [System.work, Option.bind_eq_bind, Option.bind_eq_some_iff] at h
  obtain ⟨pd, hp, h⟩ := h
  split at h
  · rename_i hc
    subst hc
    obtain rfl := Option.some.inj h
    exact .list hq hp
  · split at h
    · obtain rfl := Option.some.inj h
      exact .resolve hq hp (by assumption)
    · rename_i hread hother
      rw [addNode_eq (m := { s.model with commandQueue := rest }) hp] at h
      obtain rfl := Option.some.inj h
      rw [not_or] at hother
      exact .change hq hp ⟨hread, hother⟩

theorem step_moved {proto : Protocol} {s s' : System} {a : Action} (hs : Consistent s)
    (h : s.step proto a = some s') : Moved proto s a s' := by
  have hm := hs.wellFormed
  cases a with
  | query p =>
    simp only [System.step, Option.bind_eq_bind, Option.bind_eq_some_iff] at h
    obtain ⟨pd, hp, ⟨n, m'⟩, hrow, h⟩ := h
    obtain rfl := Option.some.inj h
    have hidx := (persistent_spec hm hp).1
    by_cases hname : pd.fileName = ['.', 'w', 'i', 'c', 'd']
    · simp [rowCount_wicd hidx hp hname] at hrow
    · rw [rowCount_eq hidx hp hname, requestListing_eq hp, Option.map_some] at hrow
      obtain ⟨-, rfl⟩ := Prod.mk.inj (Option.some.inj hrow)
      rw [queried_eq hp]
      split
      · exact .ask (by simp) hp (by rintro x ⟨⟩; exact ⟨rfl, by assumption⟩)
      · exact .idle (by simp)
  | click p =>
    simp only [System.step, Model.slotRemoteDirNodeClicked, Option.bind_eq_bind,
      Option.bind_eq_some_iff] at h
    obtain ⟨m', ⟨pd, hp, hm'⟩, h⟩ := h
    obtain rfl := Option.some.inj h
    split at hm'
    · rw [addNode_eq hp] at hm'
      obtain rfl := Option.some.inj hm'
      exact .ask (by simp) hp (by simp)
    · obtain rfl := Option.some.inj hm'
      exact .idle (by simp)
  | exec p cmd params =>
    simp only [System.step, Option.bind_eq_bind, Option.bind_eq_some_iff] at h
    obtain ⟨pd, hp, _, hcmd, h⟩ := h
    obtain rfl := Option.some.inj h
    refine .exec hp ?_
    by_contra hno
    simp [hno] at hcmd
  | rename n value =>
    simp only [System.step, Option.bind_eq_bind, Option.bind_eq_some_iff] at h
    obtain ⟨nd, hn, -, -, m', hm', h⟩ := h
    obtain rfl := Option.some.inj h
    rcases setDataString_cases hm hn hm' with rfl | ⟨q, qd, path, params, hq, rfl⟩
    · exact .idle (by simp)
    · exact .rename hn hq
  | work entries status =>
    rw [System.step] at h
    split at h
    · simp at h
    · rename_i cmd rest hq
      exact work_moved hs hq h
  | deliver =>
    rw [System.step] at h
    split at h
    · simp at h
    · rename_i e events he
      rw [Option.map_eq_some_iff] at h
      obtain ⟨m', hm', rfl⟩ := h
      cases e with
      | retrived p i es =>
        obtain rfl := hs.retrived p i es (by simp [he])
        have hslot : s.model.slotRemoteDirNodeRetrived i i es = some m' := hm'
        cases hp : s.model.nodes i with
        | none => simp [Model.slotRemoteDirNodeRetrived, hp] at hslot
        | some pd =>
          obtain ⟨l, hl, -⟩ := hm.children i pd hp
          exact .refresh he hp hl (slot_refreshed hm hp hl hslot)
      | finished p i cmd status =>
        obtain rfl := hs.finished p i cmd status (by simp [he])
        exact executeCommandFinished_moved he hm'

/-! ## What every run keeps -/

theorem withRequest_dataOnly {m : Model} {p : Nat} {pd : NetDirNode} (hp : m.nodes p = some pd) :
    DataOnly m (m.withRequest p pd) := by
  have h : DataOnly m (m.set p pd.updating) := dataOnly_set hp ⟨rfl, rfl, rfl⟩
  exact h.trans (dataOnly_queue _ _)

theorem Moved.dataOnly {proto : Protocol} {s s' : System} {a : Action} (h : Moved proto s a s') :
    DataOnly s.model s'.model ∨ a = .deliver ∧ ∃ p pd l es,
      s.events = .retrived p p es :: s'.events ∧ s.model.nodes p = some pd ∧ Children pd l ∧
        Refreshed s.model s'.model p pd l es := by
  cases h with
  | idle => exact Or.inl (dataOnly_refl _)
  | ask _ hp => exact Or.inl (withRequest_dataOnly hp)
  | exec => exact Or.inl (dataOnly_queue _ _)
  | rename hn =>
    refine Or.inl (DataOnly.trans (dataOnly_set hn ?_) (dataOnly_queue _ _))
    exact ⟨rfl, rfl, rfl⟩
  | list => exact Or.inl (dataOnly_queue _ _)
  | resolve => exact Or.inl (dataOnly_queue _ _)
  | change _ hp => exact Or.inl ((dataOnly_queue _ _).trans (withRequest_dataOnly (by exact hp)))
  | refresh he hp hl hr => exact Or.inr ⟨rfl, _, _, _, _, he, hp, hl, hr⟩
  | done => exact Or.inl (dataOnly_refl _)
  | linked _ hp =>
    refine Or.inl (dataOnly_set hp ?_)
    exact ⟨rfl, rfl, rfl⟩
  | follow _ hp =>
    refine Or.inl (DataOnly.trans (dataOnly_set hp ?_) (withRequest_dataOnly (Model.set_nodes_self ..)))
    exact ⟨rfl, rfl, rfl⟩
  | broken _ _ hp =>
    refine Or.inl (dataOnly_set hp ?_)
    exact ⟨rfl, rfl, rfl⟩

theorem Moved.wellFormed {proto : Protocol} {s s' : System} {a : Action}
    (h : Moved proto s a s') (hm : WellFormed s.model) : WellFormed s'.model := by
  rcases h.dataOnly with h | ⟨-, p, pd, l, es, -, -, -, hr⟩
  · exact h.wellFormed hm
  · exact hr.wellFormed

theorem Moved.next_le {proto : Protocol} {s s' : System} {a : Action} (h : Moved proto s a s') :
    s.model.next ≤ s'.model.next := by
  rcases h.dataOnly with h | ⟨-, p, pd, l, es, -, -, -, hr⟩
  · rw [h.next]
  · rw [hr.next]
    omega

theorem mem_queue_concat {m : Model} {queue : List QueueElem} {p : Nat} {pd : NetDirNode}
    {cmd : Command} {params : QString} {q : QueueElem} (hp : m.nodes p = some pd)
    (hq : q ∈ queue ++ [⟨p, p, cmd, params⟩]) :
    q ∈ queue ∨ q.persisIndex = q.parentItem ∧ ∃ nd, m.nodes q.parentItem = some nd := by
  rcases List.mem_append.mp hq with hq | hq
  · exact Or.inl hq
  · obtain rfl := List.mem_singleton.mp hq
    exact Or.inr ⟨rfl, _, hp⟩

theorem Moved.queue {proto : Protocol} {s s' : System} {a : Action} (h : Moved proto s a s')
    {q : QueueElem} (hq : q ∈ s'.model.commandQueue) : q ∈ s.model.commandQueue ∨
      q.persisIndex = q.parentItem ∧ ∃ nd, s.model.nodes q.parentItem = some nd := by
  cases h with
  | idle => exact Or.inl hq
  | ask _ hp => exact mem_queue_concat hp hq
  | exec hp => exact mem_queue_concat hp hq
  | rename _ hp => exact mem_queue_concat hp hq
  | list hrest => exact Or.inl (hrest ▸ List.mem_cons_of_mem _ hq)
  | resolve hrest => exact Or.inl (hrest ▸ List.mem_cons_of_mem _ hq)
  | change hrest hp =>
    rcases mem_queue_concat hp hq with hq | hq
    · exact Or.inl (hrest ▸ List.mem_cons_of_mem _ hq)
    · exact Or.inr hq
  | refresh _ hp _ hr =>
    rw [hr.queue, asked] at hq
    rcases List.mem_append.mp hq with hq | hq
    · exact Or.inl hq
    · split at hq
      · obtain rfl := List.mem_singleton.mp hq
        exact Or.inr ⟨rfl, _, hp⟩
      · simp at hq
  | done => exact Or.inl hq
  | linked => exact Or.inl hq
  | follow _ hp => exact mem_queue_concat hp hq
  | broken => exact Or.inl hq

theorem Moved.events {proto : Protocol} {s s' : System} {a : Action} (h : Moved proto s a s')
    {e : Event} (he : e ∈ s'.events) : e ∈ s.events ∨ ∃ p pd, s.model.nodes p = some pd ∧
      ((∃ entries params, ⟨p, p, .readdir, params⟩ ∈ s.model.commandQueue ∧
          e = .retrived p p (retriveDir proto pd entries)) ∨
        ∃ cmd status, e = .finished p p cmd status) := by
  cases h with
  | idle => exact Or.inl he
  | ask => exact Or.inl he
  | exec => exact Or.inl he
  | rename => exact Or.inl he
  | @list entries status p pd params rest hq hp =>
    rcases List.mem_append.mp he with he | he
    · exact Or.inl he
    rcases List.mem_cons.mp he with rfl | he
    · exact Or.inr ⟨p, pd, hp, Or.inl ⟨entries, params, by simp [hq], rfl⟩⟩
    · exact Or.inr ⟨p, pd, hp, Or.inr ⟨_, _, List.mem_singleton.mp he⟩⟩
  | resolve _ hp =>
    rcases List.mem_append.mp he with he | he
    · exact Or.inl he
    · exact Or.inr ⟨_, _, hp, Or.inr ⟨_, _, List.mem_singleton.mp he⟩⟩
  | change _ hp =>
    rcases List.mem_append.mp he with he | he
    · exact Or.inl he
    · exact Or.inr ⟨_, _, hp, Or.inr ⟨_, _, List.mem_singleton.mp he⟩⟩
  | refresh hev => exact Or.inl (hev ▸ List.mem_cons_of_mem _ he)
  | done hev => exact Or.inl (hev ▸ List.mem_cons_of_mem _ he)
  | linked hev => exact Or.inl (hev ▸ List.mem_cons_of_mem _ he)
  | follow hev => exact Or.inl (hev ▸ List.mem_cons_of_mem _ he)
  | broken hev => exact Or.inl (hev ▸ List.mem_cons_of_mem _ he)

theorem consistent_start {home : QString} {m : Model}
    (h : Model.empty.setUserHomePath home = some m) : Consistent ⟨m, []⟩ := by
  obtain ⟨hwf, hq⟩ := setUserHomePath_spec h
  refine ⟨hwf, ?_, by simp, by simp⟩
  intro q hmem
  have hmem : q ∈ m.commandQueue := hmem
  simp [hq] at hmem

theorem Moved.consistent {proto : Protocol} {s s' : System} {a : Action} (h : Moved proto s a s')
    (hs : Consistent s) : Consistent s' := by
  refine ⟨h.wellFormed hs.wellFormed, ?_, ?_, ?_⟩
  · intro q hq
    rcases h.queue hq with hq | ⟨hq, -⟩
    · exact hs.queue q hq
    · exact hq
  · intro p i es he
    rcases h.events he with he | ⟨q, qd, -, ⟨entries, params, -, he⟩ | ⟨cmd, status, he⟩⟩
    · exact hs.retrived p i es he
    · cases he
      rfl
    · cases he
  · intro p i cmd status he
    rcases h.events he with he | ⟨q, qd, -, ⟨entries, params, -, he⟩ | ⟨cmd, status, he⟩⟩
    · exact hs.finished p i cmd status he
    · cases he
    · cases he
      rfl

end NullFxp.RemoteDirModel
