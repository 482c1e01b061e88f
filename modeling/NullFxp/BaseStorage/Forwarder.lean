import NullFxp.Lib.Settings
import NullFxp.QMap

/-!
# The stored port forwards

All forwarders are in one settings file, each in the group of its name. `addForwarder` looks for the
group in the list of groups when it is in the group already, and so never finds it.
-/

namespace NullFxp.BaseStorage

open Settings

/-! ## The operations -/

/-- The values that `addForwarder` writes, in its order. -/
def entry (fwd : QMap) (ctime mtime : QString) : List (String × QString) :=
  [("fwd_sess_name", fwd.value "fwd_sess_name"), ("ref_sess_name", fwd.value "ref_sess_name"),
    ("remote_host", fwd.value "remote_host"), ("remote_port", fwd.value "remote_port"),
    ("dest_host", fwd.value "dest_host"), ("dest_ports", fwd.value "dest_ports"),
    ("ctime", ctime), ("mtime", mtime)]

/-- `setValue` for each pair, in the current group -/
def setEntry (file : Settings QString QString) (group : List QString) (es : List (String × QString)) :
    Settings QString QString :=
  es.foldl (fun file e => file.setValue group e.1.toList e.2) file

/-- `mtime` is `QDateTime::currentDateTime().toString()`. A name is the group of its parts. -/
def addForwarder (file : Settings QString QString) (fwd : QMap) (mtime : QString) :
    Settings QString QString :=
  let fwdSessName := fwd.value "fwd_sess_name"
  let group := components fwdSessName
  let groups := file.childGroups group
  let ctime := if fwdSessName ∈ groups then (file.value group "ctime".toList).getD [] else mtime
  setEntry file group (entry fwd ctime mtime)

def forwarderKeys : List String :=
  ["fwd_sess_name", "ref_sess_name", "remote_host", "remote_port", "dest_host", "dest_ports", "ctime",
    "mtime"]

/-- `m[key] = value` for each pair -/
def toMap (es : List (String × QString)) : QMap := es.foldl (fun m e => m.insert e.1 e.2) QMap.empty

def getForwarder (file : Settings QString QString) (name : QString) : QMap :=
  if name ∈ file.childGroups [] then
    toMap (forwarderKeys.map fun key => (key, (file.value (components name) key.toList).getD []))
  else QMap.empty

def getForwarderNames (file : Settings QString QString) : List QString := file.childGroups []

/-! ## A sequence of calls -/

structure Save where
  fwd : QMap
  time : QString

def Save.name (c : Save) : QString := c.fwd.value "fwd_sess_name"

def saveAll (calls : List Save) : Settings QString QString :=
  calls.foldl (fun file c => addForwarder file c.fwd c.time) ∅

def firstFor (calls : List Save) (name : QString) : Option Save := calls.find? fun c => c.name = name

def lastFor (calls : List Save) (name : QString) : Option Save :=
  calls.reverse.find? fun c => c.name = name

/-- What the store is for: a forwarder has the values of its last call and the time of its first as well,
a call is for one name only, and each name is listed once. -/
structure KeepsCreation (calls : List Save) : Prop where
  stored : ∀ name first last, firstFor calls name = some first → lastFor calls name = some last →
    getForwarder (saveAll calls) name = toMap (entry last.fwd first.time last.time)
  others : ∀ earlier c, earlier ++ [c] <+: calls → ∀ name ≠ c.name,
    getForwarder (saveAll (earlier ++ [c])) name = getForwarder (saveAll earlier) name
  listed : (getForwarderNames (saveAll calls)).Nodup ∧
    ∀ name, name ∈ getForwarderNames (saveAll calls) ↔ ∃ c ∈ calls, c.name = name

/-- The name of one group. -/
def IsPart (name : QString) : Prop := name ≠ [] ∧ '/' ∉ name

instance (name : QString) : Decidable (IsPart name) := inferInstanceAs (Decidable (_ ∧ _))

/-! ## The file -/

theorem components_part {name : QString} (h : IsPart name) : components name = [name] := by
  rw [components, List.splitOn_eq_singleton h.2]
  simp [h.1]

theorem isPart_of_mem_components {name part : QString} (h : part ∈ components name) : IsPart part := by
  obtain ⟨hmem, hne⟩ := List.mem_filter.mp h
  exact ⟨by simpa using hne, slash_not_mem_of_mem_splitOn hmem⟩

theorem toMap_concat (es : List (String × QString)) (e : String × QString) :
    toMap (es ++ [e]) = (toMap es).insert e.1 e.2 := by
  simp [toMap]

theorem setEntry_lookup (file : Settings QString QString) (group : List QString)
    (es : List (String × QString)) (key : QString) :
    (setEntry file group es).lookup (group ++ [key]) =
      (toMap es key).or (file.lookup (group ++ [key])) := by
  induction es using List.reverseRecOn with
  | nil => rfl
  | append_singleton es e ih =>
    rw [toMap_concat, setEntry, List.foldl_concat, setValue]
    unfold QMap.insert
    by_cases hkey : key = e.1.toList
    · rw [if_pos hkey, hkey, AList.lookup_insert, Option.some_or]
    · have hne : group ++ [key] ≠ group ++ [e.1.toList] := by simpa using hkey
      rw [if_neg hkey, AList.lookup_insert_ne hne]
      exact ih

theorem setEntry_lookup_ne (file : Settings QString QString) (group : List QString)
    (es : List (String × QString)) {path : List QString} (h : ∀ key, path ≠ group ++ [key]) :
    (setEntry file group es).lookup path = file.lookup path := by
  induction es using List.reverseRecOn with
  | nil => rfl
  | append_singleton es e ih =>
    rw [setEntry, List.foldl_concat, setValue, AList.lookup_insert_ne (h _)]
    exact ih

theorem mem_setEntry {file : Settings QString QString} {group : List QString}
    {es : List (String × QString)} {path : List QString} (h : path ∈ setEntry file group es) :
    path ∈ file ∨ ∃ e ∈ es, path = group ++ [e.1.toList] := by
  induction es using List.reverseRecOn with
  | nil => exact .inl h
  | append_singleton es e ih =>
    rw [setEntry, List.foldl_concat, setValue, AList.mem_insert] at h
    rcases h with rfl | h
    · exact .inr ⟨e, by simp, rfl⟩
    · rcases ih h with h | ⟨e', he', hpath⟩
      · exact .inl h
      · exact .inr ⟨e', by simp [he'], hpath⟩

theorem entry_keys (fwd : QMap) (ctime mtime : QString) :
    (entry fwd ctime mtime).map Prod.fst = forwarderKeys := rfl

theorem entry_texts (fwd : QMap) (ctime mtime : QString) :
    ((entry fwd ctime mtime).map fun e => e.1.toList) = forwarderKeys.map String.toList := by
  rw [← entry_keys fwd ctime mtime, List.map_map, Function.comp_def]

theorem isPart_key : ∀ key ∈ forwarderKeys, IsPart key.toList := by decide

theorem saveAll_parts (calls : List Save) :
    ∀ path ∈ saveAll calls, ∀ part ∈ path, IsPart part := by
  induction calls using List.reverseRecOn with
  | nil =>
    intro path hpath
    exact absurd hpath (AList.notMem_empty path)
  | append_singleton calls c ih =>
    intro path hpath part hpart
    rw [saveAll, List.foldl_concat] at hpath
    rcases mem_setEntry hpath with hold | ⟨e, he, rfl⟩
    · exact ih path hold part hpart
    · rcases List.mem_append.mp hpart with hpart | hpart
      · exact isPart_of_mem_components hpart
      · rw [List.mem_singleton.mp hpart]
        apply isPart_key
        rw [← entry_keys]
        exact List.mem_map_of_mem he

/-! ## Plain names -/

theorem toMap_isSome_iff (es : List (String × QString)) (key : QString) :
    (toMap es key).isSome ↔ key ∈ es.map fun e => e.1.toList := by
  induction es using List.reverseRecOn with
  | nil => simp [toMap, QMap.empty]
  | append_singleton es e ih =>
    rw [toMap_concat, List.map_append, List.mem_append, ← ih]
    unfold QMap.insert
    by_cases hkey : key = e.1.toList
    · simp [hkey]
    · simp [hkey]

theorem toMap_of_mem {es : List (String × QString)} (hnd : (es.map Prod.fst).Nodup)
    {e : String × QString} (he : e ∈ es) : toMap es e.1.toList = some e.2 := by
  induction es using List.reverseRecOn with
  | nil => cases he
  | append_singleton es e' ih =>
    rw [List.map_append, List.map_singleton, List.nodup_append] at hnd
    obtain ⟨hnd, -, hne⟩ := hnd
    rw [toMap_concat]
    unfold QMap.insert
    rcases List.mem_append.mp he with he | he
    · have hkey : e.1.toList ≠ e'.1.toList := fun heq =>
        hne e.1 (List.mem_map_of_mem he) e'.1 (by simp) (String.toList_inj.mp heq)
      rw [if_neg hkey, ih hnd he]
    · obtain rfl := List.mem_singleton.mp he
      rw [if_pos rfl]

theorem entry_read (fwd : QMap) (ctime mtime : QString) :
    (forwarderKeys.map fun key => (key, (toMap (entry fwd ctime mtime) key.toList).getD [])) =
      entry fwd ctime mtime := by
  have hnd : ((entry fwd ctime mtime).map Prod.fst).Nodup := by
    rw [entry_keys]
    decide
  rw [← entry_keys fwd ctime mtime, List.map_map]
  conv_rhs => rw [← List.map_id (entry fwd ctime mtime)]
  refine List.map_congr_left fun e he => ?_
  simp [toMap_of_mem hnd he]

theorem entry_or (fwd fwd' : QMap) (ctime mtime ctime' mtime' key : QString) :
    (toMap (entry fwd ctime mtime) key).or (toMap (entry fwd' ctime' mtime') key) =
      toMap (entry fwd ctime mtime) key := by
  cases hnew : toMap (entry fwd ctime mtime) key with
  | some v => rfl
  | none =>
    have hkeys : ¬ (toMap (entry fwd' ctime' mtime') key).isSome := by
      rw [toMap_isSome_iff]
      have hnone : ¬ (toMap (entry fwd ctime mtime) key).isSome := by simp [hnew]
      rwa [toMap_isSome_iff, entry_texts, ← entry_texts fwd' ctime' mtime'] at hnone
    simpa using hkeys

theorem lastFor_concat (calls : List Save) (c : Save) (name : QString) :
    lastFor (calls ++ [c]) name = if c.name = name then some c else lastFor calls name := by
  unfold lastFor
  rw [List.reverse_append, List.reverse_singleton, List.singleton_append, List.find?_cons]
  by_cases h : c.name = name
  · simp [h]
  · simp [h]

theorem lastFor_eq_some {calls : List Save} {name : QString} {c : Save}
    (h : lastFor calls name = some c) : c ∈ calls ∧ c.name = name := by
  refine ⟨?_, by simpa using List.find?_some h⟩
  simpa using List.mem_of_find?_eq_some h

theorem lastFor_isSome_iff (calls : List Save) (name : QString) :
    (lastFor calls name).isSome ↔ ∃ c ∈ calls, c.name = name := by
  unfold lastFor
  rw [List.find?_isSome]
  simp

/-- The file after calls with plain names: each has its own group, with the values of its last call,
and the time of that as the creation time. -/
structure Stored (file : Settings QString QString) (calls : List Save) : Prop where
  flat : ∀ path ∈ file, ∃ name key, path = [name, key]
  lookup : ∀ name key, file.lookup [name, key] =
    (lastFor calls name).bind fun c => toMap (entry c.fwd c.time c.time) key

theorem Stored.add {file : Settings QString QString} {calls : List Save} (h : Stored file calls)
    {c : Save} (hc : IsPart c.name) : Stored (addForwarder file c.fwd c.time) (calls ++ [c]) := by
  have hgroup : components (c.fwd.value "fwd_sess_name") = [c.name] := components_part hc
  have hnone : c.fwd.value "fwd_sess_name" ∉ file.childGroups [c.name] := by
    intro hmem
    obtain ⟨key, rest, hpath⟩ := mem_childGroups.mp hmem
    obtain ⟨name, key', heq⟩ := h.flat _ hpath
    simp at heq
  have hadd : addForwarder file c.fwd c.time = setEntry file [c.name] (entry c.fwd c.time c.time) := by
    simp only [addForwarder, hgroup, if_neg hnone]
  rw [hadd]
  refine ⟨?_, ?_⟩
  · intro path hpath
    rcases mem_setEntry hpath with hold | ⟨e, -, rfl⟩
    · exact h.flat path hold
    · exact ⟨c.name, e.1.toList, rfl⟩
  · intro name key
    rw [lastFor_concat]
    by_cases hname : c.name = name
    · rw [if_pos hname, ← hname, Option.bind_some]
      have hlook := setEntry_lookup file [c.name] (entry c.fwd c.time c.time) key
      rw [List.singleton_append] at hlook
      rw [hlook, h.lookup]
      cases lastFor calls c.name with
      | none => exact Option.or_none
      | some c' => rw [Option.bind_some, entry_or]
    · rw [if_neg hname, setEntry_lookup_ne, h.lookup]
      intro key' heq
      simp only [List.singleton_append, List.cons.injEq] at heq
      exact hname heq.1.symm

theorem saveAll_stored {calls : List Save} (h : ∀ c ∈ calls, IsPart c.name) :
    Stored (saveAll calls) calls := by
  induction calls using List.reverseRecOn with
  | nil =>
    refine ⟨fun path hpath => absurd hpath (AList.notMem_empty path), fun name key => ?_⟩
    exact AList.lookup_empty _
  | append_singleton calls c ih =>
    rw [saveAll, List.foldl_concat]
    exact (ih fun c' hc' => h c' (by simp [hc'])).add (h c (by simp))

section Plain

variable {calls : List Save} (h : ∀ c ∈ calls, IsPart c.name)

include h

theorem mem_getForwarderNames (name : QString) :
    name ∈ getForwarderNames (saveAll calls) ↔ ∃ c ∈ calls, c.name = name := by
  have hs := saveAll_stored h
  rw [← lastFor_isSome_iff, getForwarderNames, mem_childGroups]
  constructor
  · rintro ⟨key, rest, hpath⟩
    obtain ⟨name', key', heq⟩ := hs.flat _ hpath
    obtain ⟨rfl, rfl, rfl⟩ : name = name' ∧ key = key' ∧ rest = [] := by simpa using heq
    rw [← AList.lookup_isSome, List.nil_append, hs.lookup] at hpath
    cases hlast : lastFor calls name with
    | none => simp [hlast] at hpath
    | some c => rfl
  · intro hsome
    obtain ⟨c, hc⟩ := Option.isSome_iff_exists.mp hsome
    refine ⟨"ctime".toList, [], ?_⟩
    rw [← AList.lookup_isSome, List.nil_append, hs.lookup, hc, Option.bind_some, toMap_isSome_iff]
    simp [entry]

theorem getForwarder_plain (name : QString) :
    getForwarder (saveAll calls) name =
      (lastFor calls name).elim QMap.empty fun c => toMap (entry c.fwd c.time c.time) := by
  have hs := saveAll_stored h
  have hmem := (mem_getForwarderNames h name).trans (lastFor_isSome_iff calls name).symm
  unfold getForwarder
  cases hlast : lastFor calls name with
  | none =>
    rw [hlast] at hmem
    rw [if_neg (by simpa [getForwarderNames] using hmem)]
    rfl
  | some c =>
    rw [hlast] at hmem
    obtain ⟨hc, hname⟩ := lastFor_eq_some hlast
    have hpart : IsPart name := hname ▸ h c hc
    have hvalue : ∀ key, (saveAll calls).value (components name) key =
        toMap (entry c.fwd c.time c.time) key := by
      intro key
      rw [Settings.value, components_part hpart, List.singleton_append, hs.lookup, hlast,
        Option.bind_some]
    rw [if_pos (by simpa [getForwarderNames] using hmem)]
    simp only [hvalue]
    rw [entry_read, Option.elim_some]

end Plain

/-! ## The creation time -/

theorem toMap_entry_ctime (fwd : QMap) (ctime mtime : QString) :
    toMap (entry fwd ctime mtime) "ctime".toList = some ctime := by
  have hnd : ((entry fwd ctime mtime).map Prod.fst).Nodup := by
    rw [entry_keys]
    decide
  exact toMap_of_mem hnd (e := ("ctime", ctime)) (by simp [entry])

theorem isPart_of_listed {calls : List Save} {name : QString}
    (h : name ∈ getForwarderNames (saveAll calls)) : IsPart name := by
  obtain ⟨key, rest, hpath⟩ := mem_childGroups.mp h
  exact saveAll_parts calls _ hpath name (by simp)

theorem others_unchanged {calls : List Save} {c : Save} (h : ∀ c' ∈ calls ++ [c], IsPart c'.name)
    {name : QString} (hname : name ≠ c.name) :
    getForwarder (saveAll (calls ++ [c])) name = getForwarder (saveAll calls) name := by
  rw [getForwarder_plain h, getForwarder_plain fun c' hc' => h c' (by simp [hc']), lastFor_concat,
    if_neg (Ne.symm hname)]

/-- **When a forwarder keeps its creation time**: the names are those of single groups, and every
forwarder was saved for the last time at the time of its first save. -/
theorem keepsCreation_iff (calls : List Save) :
    KeepsCreation calls ↔ (∀ c ∈ calls, IsPart c.name) ∧
      ∀ name first last, firstFor calls name = some first → lastFor calls name = some last →
        first.time = last.time := by
  constructor
  · intro hkeeps
    have hplain : ∀ c ∈ calls, IsPart c.name := by
      intro c hc
      exact isPart_of_listed ((hkeeps.listed.2 c.name).mpr ⟨c, hc, rfl⟩)
    refine ⟨hplain, ?_⟩
    intro name first last hfirst hlast
    have hstored := hkeeps.stored name first last hfirst hlast
    rw [getForwarder_plain hplain, hlast, Option.elim_some] at hstored
    have hctime := congrFun hstored "ctime".toList
    rw [toMap_entry_ctime, toMap_entry_ctime] at hctime
    exact (Option.some.inj hctime).symm
  · rintro ⟨hplain, htime⟩
    refine ⟨?_, ?_, childGroups_nodup _ _, mem_getForwarderNames hplain⟩
    · intro name first last hfirst hlast
      rw [getForwarder_plain hplain, hlast, Option.elim_some, htime name first last hfirst hlast]
    · rintro earlier c ⟨later, hcalls⟩ name hname
      apply others_unchanged _ hname
      intro c' hc'
      exact hplain c' (by rw [← hcalls]; exact List.mem_append_left _ hc')

theorem ctime_lost : ¬ KeepsCreation
    [⟨QMap.empty.insert "fwd_sess_name" ['a'], "12:00".toList⟩,
      ⟨QMap.empty.insert "fwd_sess_name" ['a'], "13:00".toList⟩] := by
  -- Saved at noon and again at one: the creation time is one o'clock.
  intro h
  have hstored := h.stored ['a'] _ _ rfl rfl
  have hctime := congrFun hstored "ctime".toList
  revert hctime
  decide

end NullFxp.BaseStorage
