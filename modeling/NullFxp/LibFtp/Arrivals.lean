import NullFxp.LibFtp.Total

/-!
# Listings that come in several arrivals

The lines of a listing are those of all that is sent on the data connection. `list` and `lista`
read the complete lines of the first arrival.
-/

open Text

namespace NullFxp.LibFtp

def unfinished (bs : Bytes) : Bytes := (bs.splitOn 10).getLastD []

/-- The lines of a stream up to its close. The last one may lack its newline. -/
def streamLines (bs : Bytes) : List Bytes :=
  completeLines bs ++ if unfinished bs = [] then [] else [unfinished bs]

def listing (codec : Codec) (stream : Bytes) : List FTPFileInfo :=
  (streamLines stream).filterMap (entryOf codec)

theorem streamLines_append (bs cs : Bytes) :
    streamLines (bs ++ cs) = completeLines bs ++ streamLines (unfinished bs ++ cs) := by
  have hne := List.splitOn_ne_nil 10 (unfinished bs ++ cs)
  have hparts : (bs ++ cs).splitOn 10 =
      (bs.splitOn 10).dropLast ++ (unfinished bs ++ cs).splitOn 10 := splitOn_append 10 bs cs
  have hlines : completeLines (bs ++ cs) =
      completeLines bs ++ completeLines (unfinished bs ++ cs) := by
    rw [completeLines, hparts, List.dropLast_append_of_ne_nil hne, List.map_append]
    rfl
  have hlast : unfinished (bs ++ cs) = unfinished (unfinished bs ++ cs) := by
    rw [unfinished, hparts, List.getLastD_eq_getLast?, List.getLast?_append_of_ne_nil _ hne,
      ← List.getLastD_eq_getLast?]
    rfl
  rw [streamLines, streamLines, hlines, hlast, List.append_assoc]

/-- What `list` and `lista` leave to be read. -/
def leftOver : List Bytes → Bytes
  | [] => []
  | first :: later => unfinished first ++ later.flatten

theorem listing_flatten (codec : Codec) (data : List Bytes) :
    listing codec data.flatten =
      readListing codec data ++ (streamLines (leftOver data)).filterMap (entryOf codec) := by
  cases data with
  | nil => rfl
  | cons first later =>
    rw [listing, List.flatten_cons, streamLines_append, List.filterMap_append]
    rfl

theorem dirList2_of_list {ftp ftp' : Ftp Script} {path : QString} {r : Int}
    (h : list scripted path ftp = some (r, ftp') ∨ lista scripted path ftp = some (r, ftp')) :
    ftp'.dirList2 = readListing ftp.codec ftp.data := by
  rcases h with h | h
  · rw [list_spec] at h
    split at h
    · simp only [Option.some.injEq, Prod.mk.injEq] at h
      rw [← h.2]
      rfl
    · cases h
  · rw [lista_spec] at h
    split at h
    · simp only [Option.some.injEq, Prod.mk.injEq] at h
      rw [← h.2]
      rfl
    · cases h

/-- **A listing is whole** just if `parseDir` accepts none of the lines that end after the last
newline of the first arrival. -/
theorem dirList2_iff {ftp ftp' : Ftp Script} {path : QString} {r : Int}
    (h : list scripted path ftp = some (r, ftp') ∨ lista scripted path ftp = some (r, ftp')) :
    ftp'.dirList2 = listing ftp.codec ftp.data.flatten ↔
      ∀ line ∈ streamLines (leftOver ftp.data), parseDir [] line = none := by
  rw [dirList2_of_list h, listing_flatten, List.self_eq_append_right, List.filterMap_eq_nil_iff]
  simp only [entryOf, Option.map_eq_none_iff]

def fileLine : Bytes := toAscii "-rw-r--r-- 1 a b 5 Aug 10 2004 x\r\n".toList

/-- `LIST` is answered with 150 and 226, and the data comes in the given arrivals. -/
def listingFtp (data : List Bytes) : Ftp Script where
  sock := { answers := [toAscii "150 a\r\n".toList, toAscii "226 b\r\n".toList] }
  codec := ⟨fromLatin1, toAscii⟩
  data := data

theorem dirList2_one_arrival : ∃ ftp ftp', ftp = listingFtp [fileLine] ∧
    list scripted [] ftp = some (0, ftp') ∧
    ftp'.dirList2 = listing ftp.codec ftp.data.flatten := by
  have h : list scripted [] (listingFtp [fileLine]) =
      some (0, (listingFtp [fileLine]).afterList (toAscii ("LIST -a -l ".toList ++ [] ++ crlf))) := by
    rw [list_spec, if_pos (by decide)]
  exact ⟨_, _, rfl, h, (dirList2_iff (Or.inl h)).mpr (by decide)⟩

theorem dirList2_two_arrivals : ∃ ftp ftp',
    ftp = listingFtp [fileLine.take 10, fileLine.drop 10] ∧
    lista scripted [] ftp = some (0, ftp') ∧
    ftp'.dirList2 = [] ∧ (listing ftp.codec ftp.data.flatten).map (·.name) = [['x']] := by
  -- A line in two arrivals is not listed.
  refine ⟨_, (listingFtp [fileLine.take 10, fileLine.drop 10]).afterList
    (toAscii ("LIST -a ".toList ++ [] ++ crlf)), rfl, ?_, ?_, ?_⟩
  · rw [lista_spec, if_pos (by decide)]
    rfl
  · decide
  · decide +kernel

end NullFxp.LibFtp
