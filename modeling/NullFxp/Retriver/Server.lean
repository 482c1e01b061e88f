import Mathlib.Data.List.Nodup
import NullFxp.QString

/-!
# A server's files

A tree of directories, regular files, symbolic links and special files. A location is the names
from the root on, with no link in between, and a path is looked up through links.
-/

namespace NullFxp.Retriver

abbrev Loc := List QString

inductive Entry where
  | dir
  | reg
  | special
  /-- a link, with the names of its target: from the root, or from the link's directory -/
  | link (absolute : Bool) (target : List QString)
  deriving DecidableEq

/-- Every entry is given with the location of its directory and its name there. -/
structure Server where
  entries : List (Loc × QString × Entry)
  /-- so many links are followed on one path -/
  maxLinks : Nat
  nodup : (entries.map fun e => (e.1, e.2.1)).Nodup
  named : ∀ e ∈ entries, IsName e.2.1

namespace Server

def find (srv : Server) (dir : Loc) (name : QString) : Option Entry :=
  (srv.entries.find? fun e => e.1 = dir ∧ e.2.1 = name).map (·.2.2)

/-- What a listing of the directory shows. -/
def children (srv : Server) (dir : Loc) : List (QString × Entry) :=
  srv.entries.filterMap fun e => if e.1 = dir then some e.2 else none

def isDir (srv : Server) (l : Loc) : Bool :=
  match l.getLast? with
  | none => true
  | some name => srv.find l.dropLast name = some .dir

def remove (srv : Server) (dir : Loc) (name : QString) : Server where
  entries := srv.entries.filter fun e => !(e.1 = dir ∧ e.2.1 = name)
  maxLinks := srv.maxLinks
  nodup := srv.nodup.sublist (List.filter_sublist.map _)
  named e he := srv.named e (List.mem_of_mem_filter he)

theorem find_eq_some {srv : Server} {dir : Loc} {name : QString} {e : Entry} :
    srv.find dir name = some e ↔ (dir, name, e) ∈ srv.entries := by
  constructor
  · intro h
    obtain ⟨x, hx, rfl⟩ := Option.map_eq_some_iff.mp h
    have hkey : x.1 = dir ∧ x.2.1 = name := by simpa using List.find?_some hx
    obtain ⟨rfl, rfl⟩ := hkey
    exact List.mem_of_find?_eq_some hx
  · intro h
    have hsome : ∃ x, srv.entries.find? (fun e => e.1 = dir ∧ e.2.1 = name) = some x := by
      rw [← Option.isSome_iff_exists, List.find?_isSome]
      exact ⟨_, h, by simp⟩
    obtain ⟨x, hx⟩ := hsome
    have hkey : x.1 = dir ∧ x.2.1 = name := by simpa using List.find?_some hx
    -- Two entries with one place are one entry.
    have hsame : x = (dir, name, e) :=
      List.inj_on_of_nodup_map srv.nodup (List.mem_of_find?_eq_some hx) h
        (by rw [hkey.1, hkey.2])
    rw [find, hx, hsame]
    rfl

theorem mem_children {srv : Server} {dir : Loc} {name : QString} {e : Entry} :
    (name, e) ∈ srv.children dir ↔ srv.find dir name = some e := by
  rw [find_eq_some, children, List.mem_filterMap]
  constructor
  · rintro ⟨⟨d, x⟩, hmem, h⟩
    split at h
    · next hd =>
      obtain rfl := Option.some.inj h
      exact hd ▸ hmem
    · cases h
  · intro h
    exact ⟨_, h, by simp⟩

theorem isDir_concat (srv : Server) (l : Loc) (name : QString) :
    srv.isDir (l ++ [name]) = true ↔ srv.find l name = some .dir := by
  simp [isDir]

theorem find_isName {srv : Server} {dir : Loc} {name : QString} {e : Entry}
    (h : srv.find dir name = some e) : IsName name :=
  srv.named _ (find_eq_some.mp h)

theorem find_remove {srv : Server} {dir d : Loc} {name n : QString} {e : Entry} :
    (srv.remove dir name).find d n = some e ↔
      srv.find d n = some e ∧ ¬ (d = dir ∧ n = name) := by
  rw [find_eq_some, find_eq_some, remove, List.mem_filter]
  simp [imp_iff_not_or]

/-- A directory this deep, or deeper, has no entries. -/
def height (srv : Server) : Nat := (srv.entries.map fun e => e.1.length + 1).foldr max 0

theorem length_lt_height {srv : Server} {dir : Loc} (h : srv.children dir ≠ []) :
    dir.length < srv.height := by
  obtain ⟨⟨name, e⟩, he⟩ := List.exists_mem_of_ne_nil _ h
  have hentry := find_eq_some.mp (mem_children.mp he)
  rw [height]
  revert hentry
  induction srv.entries with
  | nil => exact fun hentry => absurd hentry List.not_mem_nil
  | cons first rest ih =>
    intro hentry
    rw [List.map_cons, List.foldr_cons]
    rcases List.mem_cons.mp hentry with rfl | hrest
    · exact Nat.lt_of_succ_le (Nat.le_max_left _ _)
    · exact Nat.lt_of_lt_of_le (ih hrest) (Nat.le_max_right _ _)

/-! ## Looking up a path -/

def dot : QString := ['.']

def dotdot : QString := ['.', '.']

/-- Walk along names. At a link `next` goes on with its target, but a link at the end of the path
is only followed with `follow`. -/
def walk (srv : Server) (follow : Bool) (next : Loc → List QString → Option Loc) :
    Loc → List QString → Option Loc
  | cur, [] => some cur
  | cur, name :: rest =>
    if name = dot then walk srv follow next cur rest
    else if name = dotdot then walk srv follow next cur.dropLast rest
    else match srv.find cur name with
      | none => none
      | some .dir => walk srv follow next (cur ++ [name]) rest
      | some (.link absolute target) =>
        if rest = [] ∧ follow = false then some (cur ++ [name])
        else next (if absolute then [] else cur) (target ++ rest)
      | some _ => if rest = [] then some (cur ++ [name]) else none

/-- `walk` with a limit on the links. -/
def resolveFrom (srv : Server) (follow : Bool) : Nat → Loc → List QString → Option Loc
  | 0 => srv.walk follow fun _ _ => none
  | links + 1 => srv.walk follow (resolveFrom srv follow links)

def resolve (srv : Server) (follow : Bool) (path : QString) : Option Loc :=
  srv.resolveFrom follow srv.maxLinks [] (components path)

/-- The first server has no more entries than the second. -/
structure Sub (srv' srv : Server) : Prop where
  find : ∀ {dir name e}, srv'.find dir name = some e → srv.find dir name = some e
  maxLinks : srv'.maxLinks = srv.maxLinks

theorem Sub.refl (srv : Server) : Sub srv srv := ⟨id, rfl⟩

theorem Sub.trans {a b c : Server} (h : Sub a b) (h' : Sub b c) : Sub a c :=
  ⟨fun hf => h'.find (h.find hf), h.maxLinks.trans h'.maxLinks⟩

theorem sub_remove (srv : Server) (dir : Loc) (name : QString) : Sub (srv.remove dir name) srv :=
  ⟨fun h => (find_remove.mp h).1, rfl⟩

theorem Sub.walk {srv' srv : Server} (h : Sub srv' srv) {follow : Bool}
    {next' next : Loc → List QString → Option Loc}
    (hnext : ∀ cur path l, next' cur path = some l → next cur path = some l)
    {cur : Loc} {path : List QString} {l : Loc} (hw : srv'.walk follow next' cur path = some l) :
    srv.walk follow next cur path = some l := by
  induction path generalizing cur with
  | nil => exact hw
  | cons name rest ih =>
    rw [Server.walk] at hw ⊢
    split
    · next hdot => rw [if_pos hdot] at hw; exact ih hw
    · next hdot =>
      rw [if_neg hdot] at hw
      split
      · next hdd => rw [if_pos hdd] at hw; exact ih hw
      · next hdd =>
        rw [if_neg hdd] at hw
        cases hf : srv'.find cur name with
        | none => rw [hf] at hw; cases hw
        | some e =>
          rw [hf] at hw
          rw [h.find hf]
          cases e with
          | dir => exact ih hw
          | reg => exact hw
          | special => exact hw
          | link absolute target =>
            simp only at hw ⊢
            split
            · next hlast => rwa [if_pos hlast] at hw
            · next hlast =>
              rw [if_neg hlast] at hw
              exact hnext _ _ _ hw

theorem Sub.resolveFrom {srv' srv : Server} (h : Sub srv' srv) {follow : Bool} {links : Nat}
    {cur : Loc} {path : List QString} {l : Loc}
    (hr : srv'.resolveFrom follow links cur path = some l) :
    srv.resolveFrom follow links cur path = some l := by
  induction links generalizing cur path l with
  | zero => exact h.walk (fun _ _ _ hn => by cases hn) hr
  | succ links ih => exact h.walk (fun _ _ _ hn => ih hn) hr

theorem Sub.resolve {srv' srv : Server} (h : Sub srv' srv) {follow : Bool} {path : QString}
    {l : Loc} (hr : srv'.resolve follow path = some l) : srv.resolve follow path = some l := by
  rw [Server.resolve] at hr ⊢
  rw [← h.maxLinks]
  exact h.resolveFrom hr

/-! ## Real locations -/

/-- A location on which there are directories only. -/
def RealDir (srv : Server) (l : Loc) : Prop := ∀ p, p <+: l → srv.isDir p = true

theorem RealDir.of_prefix {srv : Server} {l l' : Loc} (h : RealDir srv l) (hp : l' <+: l) :
    RealDir srv l' :=
  fun p hp' => h p (hp'.trans hp)

theorem RealDir.concat {srv : Server} {dir : Loc} {name : QString} (h : RealDir srv dir)
    (he : srv.find dir name = some .dir) : RealDir srv (dir ++ [name]) := by
  intro p hp
  rcases List.prefix_concat_iff.mp hp with rfl | hp
  · exact (isDir_concat srv dir name).mpr he
  · exact h p hp

theorem realDir_nil (srv : Server) : RealDir srv [] := by
  intro p hp
  rw [List.prefix_nil.mp hp]
  rfl

theorem RealDir.target {srv : Server} {cur : Loc} (h : RealDir srv cur) (absolute : Bool) :
    RealDir srv (if absolute then [] else cur) := by
  split
  · exact realDir_nil srv
  · exact h

theorem walk_real {srv : Server} {follow : Bool} {next : Loc → List QString → Option Loc}
    (hnext : ∀ cur path l, RealDir srv cur → next cur path = some l → RealDir srv l.dropLast)
    {cur : Loc} {path : List QString} {l : Loc} (hcur : RealDir srv cur)
    (h : srv.walk follow next cur path = some l) : RealDir srv l.dropLast := by
  induction path generalizing cur with
  | nil =>
    obtain rfl : cur = l := by simpa [walk] using h
    exact hcur.of_prefix (List.dropLast_prefix cur)
  | cons name rest ih =>
    have hleaf : ∀ {l'}, l' = cur ++ [name] → RealDir srv l'.dropLast := by
      rintro _ rfl
      rwa [List.dropLast_concat]
    rw [walk] at h
    split at h
    · exact ih hcur h
    · split at h
      · exact ih (hcur.of_prefix (List.dropLast_prefix cur)) h
      · split at h
        · cases h
        · next hdir => exact ih (hcur.concat hdir) h
        · next absolute target _ =>
          split at h
          · exact hleaf (Option.some.inj h).symm
          · exact hnext _ _ _ (hcur.target absolute) h
        · split at h
          · exact hleaf (Option.some.inj h).symm
          · cases h

theorem resolve_real {srv : Server} {follow : Bool} {path : QString} {l : Loc}
    (h : srv.resolve follow path = some l) : RealDir srv l.dropLast := by
  have hfrom : ∀ links cur path l, RealDir srv cur →
      srv.resolveFrom follow links cur path = some l → RealDir srv l.dropLast := by
    intro links
    induction links with
    | zero =>
      intro cur path l hcur h
      exact walk_real (fun _ _ _ _ hn => by cases hn) hcur h
    | succ links ih =>
      intro cur path l hcur h
      exact walk_real ih hcur h
  exact hfrom _ _ _ _ (realDir_nil srv) h

/-! ## Names below a path -/

/-- What a path leads to is the entry `name` of `dir`, unless a link is followed there. -/
def IsEntry (srv : Server) (follow : Bool) (dir : Loc) (name : QString) (l : Loc) : Prop :=
  srv.RealDir dir ∧ ∃ e, srv.find dir name = some e ∧
    ((follow = false ∨ ∀ absolute target, e ≠ .link absolute target) → l = dir ++ [name])

theorem walk_concat {srv : Server} {follow : Bool} (next next' : Loc → List QString → Option Loc)
    {name : QString} (hname : IsName name)
    (hnext : ∀ cur path l, srv.RealDir cur → next cur (path ++ [name]) = some l →
      ∃ dir, next' cur path = some dir ∧ IsEntry srv follow dir name l)
    {cur : Loc} {path : List QString} {l : Loc} (hcur : srv.RealDir cur)
    (h : srv.walk follow next cur (path ++ [name]) = some l) :
    ∃ dir, srv.walk true next' cur path = some dir ∧ IsEntry srv follow dir name l := by
  induction path generalizing cur with
  | nil =>
    have hdot : name ≠ dot := hname.2.2.1
    have hdd : name ≠ dotdot := hname.2.2.2
    rw [List.nil_append, walk, if_neg hdot, if_neg hdd] at h
    cases hf : srv.find cur name with
    | none => rw [hf] at h; cases h
    | some e =>
      rw [hf] at h
      refine ⟨cur, rfl, hcur, e, hf, fun hentry => ?_⟩
      cases e with
      | dir => exact (Option.some.inj h).symm
      | reg => exact (Option.some.inj h).symm
      | special => exact (Option.some.inj h).symm
      | link absolute target =>
        rcases hentry with rfl | hentry
        · simp only [and_self, if_true] at h
          exact (Option.some.inj h).symm
        · exact absurd rfl (hentry absolute target)
  | cons first rest ih =>
    rw [List.cons_append, walk] at h
    rw [walk]
    split
    · next hdot => rw [if_pos hdot] at h; exact ih hcur h
    · next hdot =>
      rw [if_neg hdot] at h
      split
      · next hdd =>
        rw [if_pos hdd] at h
        exact ih (hcur.of_prefix (List.dropLast_prefix cur)) h
      · next hdd =>
        rw [if_neg hdd] at h
        cases hf : srv.find cur first with
        | none => rw [hf] at h; cases h
        | some e =>
          rw [hf] at h
          cases e with
          | dir => exact ih (hcur.concat hf) h
          | reg => simp at h
          | special => simp at h
          | link absolute target =>
            simp only [List.append_eq_nil_iff, List.cons_ne_nil, and_false, false_and, if_false,
              Bool.true_eq_false, and_false] at h ⊢
            rw [← List.append_assoc] at h
            exact hnext _ _ _ (hcur.target absolute) h

theorem resolveFrom_concat {srv : Server} {follow : Bool} {name : QString} (hname : IsName name)
    {links : Nat} {cur : Loc} {path : List QString} {l : Loc} (hcur : srv.RealDir cur)
    (h : srv.resolveFrom follow links cur (path ++ [name]) = some l) :
    ∃ dir, srv.resolveFrom true links cur path = some dir ∧ IsEntry srv follow dir name l := by
  induction links generalizing cur path l with
  | zero => exact walk_concat _ _ hname (fun _ _ _ _ hn => by cases hn) hcur h
  | succ links ih =>
    exact walk_concat (srv.resolveFrom follow links) _ hname (fun _ _ _ hc hn => ih hc hn) hcur h

theorem resolve_child {srv : Server} {follow : Bool} {path name : QString} (hname : IsName name)
    {l : Loc} (h : srv.resolve follow (childPath path name) = some l) :
    ∃ dir, srv.resolve true path = some dir ∧ IsEntry srv follow dir name l := by
  rw [resolve, components_childPath path name hname] at h
  exact resolveFrom_concat hname (realDir_nil srv) h

theorem walk_concat_entry {srv : Server} {follow : Bool}
    (next next' : Loc → List QString → Option Loc) {name : QString} {dir : Loc} {e : Entry}
    (he : srv.find dir name = some e) (hdir : srv.isDir dir = true)
    (hlink : follow = true → e = .dir)
    (hnext : ∀ cur path, next' cur path = some dir → next cur (path ++ [name]) = some (dir ++ [name]))
    {cur : Loc} {path : List QString} (h : srv.walk true next' cur path = some dir) :
    srv.walk follow next cur (path ++ [name]) = some (dir ++ [name]) := by
  have hname := find_isName he
  induction path generalizing cur with
  | nil =>
    obtain rfl : cur = dir := by simpa [walk] using h
    have hdot : name ≠ dot := hname.2.2.1
    have hdd : name ≠ dotdot := hname.2.2.2
    rw [List.nil_append, walk, if_neg hdot, if_neg hdd, he]
    cases e with
    | dir => rfl
    | reg => rfl
    | special => rfl
    | link absolute target =>
      have hfollow : follow = false := by
        cases follow with
        | false => rfl
        | true => cases hlink rfl
      simp [hfollow]
  | cons first rest ih =>
    rw [walk] at h
    rw [List.cons_append, walk]
    split
    · next hdot => rw [if_pos hdot] at h; exact ih h
    · next hdot =>
      rw [if_neg hdot] at h
      split
      · next hdd => rw [if_pos hdd] at h; exact ih h
      · next hdd =>
        rw [if_neg hdd] at h
        cases hf : srv.find cur first with
        | none => rw [hf] at h; cases h
        | some e' =>
          rw [hf] at h
          -- Something that is no directory has no entries.
          have hleaf : e' ≠ .dir → (if rest = [] then some (cur ++ [first]) else none) = some dir →
              False := by
            intro hne hleaf
            split at hleaf
            · obtain rfl := Option.some.inj hleaf
              rw [isDir_concat, hf] at hdir
              exact hne (Option.some.inj hdir)
            · cases hleaf
          cases e' with
          | dir => exact ih h
          | reg => exact absurd h (hleaf (by simp))
          | special => exact absurd h (hleaf (by simp))
          | link absolute target =>
            simp only [List.append_eq_nil_iff, List.cons_ne_nil, and_false, false_and, if_false,
              Bool.true_eq_false, and_false] at h ⊢
            rw [← List.append_assoc]
            exact hnext _ _ h

theorem resolveFrom_concat_entry {srv : Server} {follow : Bool} {name : QString} {dir : Loc}
    {e : Entry} (he : srv.find dir name = some e) (hdir : srv.isDir dir = true)
    (hlink : follow = true → e = .dir) {links : Nat} {cur : Loc} {path : List QString}
    (h : srv.resolveFrom true links cur path = some dir) :
    srv.resolveFrom follow links cur (path ++ [name]) = some (dir ++ [name]) := by
  induction links generalizing cur path with
  | zero => exact walk_concat_entry _ _ he hdir hlink (fun _ _ hn => by cases hn) h
  | succ links ih =>
    exact walk_concat_entry _ (srv.resolveFrom true links) he hdir hlink
      (fun _ _ hn => ih hn) h

theorem resolve_entry {srv : Server} {follow : Bool} {path name : QString} {dir : Loc} {e : Entry}
    (h : srv.resolve true path = some dir) (hdir : srv.isDir dir = true)
    (he : srv.find dir name = some e) (hlink : follow = true → e = .dir) :
    srv.resolve follow (childPath path name) = some (dir ++ [name]) := by
  rw [resolve, components_childPath path name (find_isName he)]
  exact resolveFrom_concat_entry he hdir hlink h

end Server

end NullFxp.Retriver
