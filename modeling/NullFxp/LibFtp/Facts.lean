import NullFxp.LibFtp.Listing

/-!
# Facts of an entry

RFC 3659: an entry is a list of facts `name=value;`, a blank and the pathname. In the reply to `MLST`
it stands after a blank.
-/

open Text

namespace NullFxp.LibFtp

/-- A fact name has no `=`, and no semicolon stands in a fact. The pathname is any line. -/
structure Entry where
  facts : List (Bytes × Bytes)
  pathname : Bytes
  facts_wf : ∀ f ∈ facts, 61 ∉ f.1 ∧ 59 ∉ f.1 ∧ 59 ∉ f.2
  pathname_line : IsLine pathname

def octalVal (digits : Bytes) : Nat := digits.foldl (fun n b => 8 * n + (b.toNat - 48)) 0

namespace Entry

variable (e : Entry)

def line : Bytes :=
  32 :: (e.facts.flatMap (fun f => f.1 ++ 61 :: f.2 ++ [59]) ++ 32 :: e.pathname)

def fact (name : String) : Option Bytes := e.facts.lookup (toAscii name.toList)

/-- What an entry says comes out: its pathname, its type, the size of a file and the mode. -/
def Decodes (info : FTPFileInfo) : Prop :=
  info.name = e.pathname.map latin1 ∧
  (e.fact "type" = some (toAscii "file".toList) → info.isFile = true ∧ info.isDir = false ∧
    ∀ size ∈ e.fact "size", info.size = toLongLong (size.map latin1)) ∧
  (e.fact "type" = some (toAscii "dir".toList) → info.isFile = false ∧ info.isDir = true) ∧
  ∀ mode ∈ e.fact "UNIX.mode", info.permissions = octalVal mode

theorem last_field (h : 59 ∉ e.pathname) : ∃ b, 0 ∉ b ∧
    (e.line.splitOn 59).getLastD [] = b ++ 32 :: e.pathname := by
  rcases e.facts.eq_nil_or_concat with hnil | ⟨fs, f, hfs⟩
  · refine ⟨[32], by decide, ?_⟩
    have hline : e.line = [32] ++ 32 :: e.pathname := by simp [line, hnil]
    rw [hline, List.splitOn_eq_singleton (by simpa using h)]
    rfl
  · refine ⟨[], by decide, ?_⟩
    have hline : e.line = (32 :: fs.flatMap (fun f => f.1 ++ 61 :: f.2 ++ [59]) ++
        (f.1 ++ 61 :: f.2)) ++ 59 :: 32 :: e.pathname := by simp [line, hfs]
    rw [hline, List.splitOn_append_cons_self,
      List.splitOn_eq_singleton (show 59 ∉ 32 :: e.pathname by simpa using h),
      List.getLastD_concat]
    rfl

theorem last_field_cut (h : 59 ∈ e.pathname) :
    ∃ u, e.pathname = u ++ 59 :: (e.line.splitOn 59).getLastD [] := by
  obtain ⟨u, v, hpath, hv⟩ := exists_last_of_mem h
  have hline : e.line = (32 :: (e.facts.flatMap (fun f => f.1 ++ 61 :: f.2 ++ [59]) ++
      32 :: u)) ++ 59 :: v := by simp [line, hpath]
  refine ⟨u, ?_⟩
  rw [hline, List.splitOn_append_cons_self, List.splitOn_eq_singleton hv, List.getLastD_concat, hpath]

end Entry

theorem length_fromLatin1_le (bs : Bytes) : (fromLatin1 bs).length ≤ bs.length := by
  rw [fromLatin1, List.length_map]
  exact (List.takeWhile_sublist _).length_le

theorem parseMLSTLine_name {buffer : Bytes} {info : FTPFileInfo}
    (h : parseMLSTLine buffer = some info) :
    info.name = fromLatin1 ((buffer.splitOn 59).getLastD []) := by
  simp only [parseMLSTLine, Option.bind_eq_bind, Option.bind_eq_some_iff, Option.some.injEq] at h
  obtain ⟨-, -, -, -, -, -, -, -, rfl⟩ := h
  rfl

/-- **No entry is decoded**: with the pathname comes the blank before it, or only what follows its
last semicolon comes. -/
theorem mlst_never_decodes (e : Entry) : ¬ ∃ info, parseMLSTLine e.line = some info ∧ e.Decodes info := by
  rintro ⟨info, hparse, hname, -⟩
  rw [parseMLSTLine_name hparse] at hname
  have hlen := congrArg List.length hname
  rw [List.length_map] at hlen
  by_cases h : 59 ∈ e.pathname
  · obtain ⟨u, hu⟩ := e.last_field_cut h
    have hle := length_fromLatin1_le ((e.line.splitOn 59).getLastD [])
    have hpath := congrArg List.length hu
    rw [List.length_append, List.length_cons] at hpath
    omega
  · obtain ⟨b, hb, hlast⟩ := e.last_field h
    rw [hlast] at hname hlen
    have hnul : 0 ∉ e.pathname := by
      intro hmem
      have hzero : latin1 0 ∈ fromLatin1 (b ++ 32 :: e.pathname) := by
        rw [hname]
        exact List.mem_map_of_mem hmem
      exact latin1_zero_not_mem _ hzero
    rw [fromLatin1_of_not_mem (by simp [hb, hnul]), List.length_map, List.length_append,
      List.length_cons] at hlen
    omega

/-- The example that stands beside the parser, up to its mode. -/
def desktopPictures : Entry where
  facts :=
    [(toAscii "type".toList, toAscii "file".toList),
     (toAscii "size".toList, toAscii "85701976".toList),
     (toAscii "modify".toList, toAscii "20100411162529".toList),
     (toAscii "UNIX.mode".toList, toAscii "0644".toList)]
  pathname := toAscii "//Desktop Pictures.tar.gz".toList
  facts_wf := by decide
  pathname_line := by decide

theorem mlst_desktopPictures : ∃ info, parseMLSTLine desktopPictures.line = some info ∧
    info.name = " //Desktop Pictures.tar.gz".toList ∧ info.isDir = true ∧ info.size = 0 ∧
    info.permissions ≠ 0o644 ∧ ¬ desktopPictures.Decodes info := by
  -- Besides the blank, the first fact is not found, so the file is taken for a directory, and the
  -- mode is not 0644.
  refine ⟨{
    name := " //Desktop Pictures.tar.gz".toList, isDir := true, isFile := false
    isWritable := false, permissions := 492 }, by decide, rfl, rfl, rfl, by decide, ?_⟩
  intro h
  exact absurd h.1 (by decide)

end NullFxp.LibFtp
