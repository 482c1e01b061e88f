import NullFxp.Lib.Hex
import NullFxp.Lib.Text
import NullFxp.QString

/-!
# Packages for drag and drop

A `TaskPackage` is carried in a MIME type of its own, as fields of hexadecimal digits with a bar
between them, and an ampersand between the files.
-/

open Text

namespace NullFxp

abbrev QByteArray := List UInt8

structure TaskPackage where
  scheme : Int
  files : List QString := []
  host : QString := []
  port : QString := []
  username : QString := []
  password : QString := []
  pubkey : QString := []
  deriving DecidableEq

namespace TaskPackage

def protoMin : Int := 0
def protoMax : Int := 9

def isValid (pkg : TaskPackage) : Bool :=
  if pkg.scheme ≤ protoMin ∨ pkg.scheme ≥ protoMax then false
  else if pkg.files.length = 0 then false
  else true

def bar : UInt8 := 124
def ampersand : UInt8 := 38

/-- `s.toAscii().toHex()` -/
def hexOf (s : QString) : QByteArray := Hex.lower.ofBytes (toAscii s)

/-- `QString(QByteArray::fromHex(ba))` -/
def ofHex (ba : QByteArray) : QString := fromLatin1 (Hex.fromHex ba)

def tag : QByteArray := toAscii "TaskPackage".toList

def toRawData (pkg : TaskPackage) : QByteArray :=
  tag ++ bar :: [ampersand].intercalate (pkg.files.map hexOf) ++
    bar :: hexOf (toString pkg.scheme).toList ++ bar :: hexOf pkg.host ++ bar :: hexOf pkg.port ++
    bar :: hexOf pkg.username ++ bar :: hexOf pkg.password ++ bar :: hexOf pkg.pubkey

def fromRawData (ba : QByteArray) : TaskPackage :=
  match ba.splitOn bar with
  | [t, files, scheme, host, port, username, password, pubkey] =>
    if t ≠ tag then { scheme := protoMax }
    else
      { scheme := toInt ((Hex.fromHex scheme).map latin1)
        files := (files.splitOn ampersand).map ofHex
        host := ofHex host
        port := ofHex port
        username := ofHex username
        password := ofHex password
        pubkey := ofHex pubkey }
  | _ => { scheme := protoMax }

/-! ## Fields -/

/-- Every text of a package. -/
def texts (pkg : TaskPackage) : List QString :=
  pkg.files ++ [pkg.host, pkg.port, pkg.username, pkg.password, pkg.pubkey]

/-- A package whose texts went through bytes and back. -/
def reread (pkg : TaskPackage) : TaskPackage :=
  let text (s : QString) := fromLatin1 (toAscii s)
  { scheme := pkg.scheme
    files := pkg.files.map text
    host := text pkg.host
    port := text pkg.port
    username := text pkg.username
    password := text pkg.password
    pubkey := text pkg.pubkey }

theorem ofHex_hexOf (s : QString) : ofHex (hexOf s) = fromLatin1 (toAscii s) := by
  rw [ofHex, hexOf, Hex.fromHex_ofBytes]

theorem bar_not_mem_hexOf (s : QString) : bar ∉ hexOf s := by
  intro h
  have hdigit := Hex.lower.mem_chars_of_mem_ofBytes h
  exact absurd hdigit (by decide)

theorem ampersand_not_mem_hexOf (s : QString) : ampersand ∉ hexOf s := by
  intro h
  have hdigit := Hex.lower.mem_chars_of_mem_ofBytes h
  exact absurd hdigit (by decide)

theorem bar_not_mem_files (files : List QString) :
    bar ∉ [ampersand].intercalate (files.map hexOf) := by
  induction files with
  | nil => simp [List.intercalate]
  | cons f files ih =>
    cases files with
    | nil => simpa using bar_not_mem_hexOf f
    | cons g files =>
      have hne : bar ≠ ampersand := by decide
      simp only [List.map_cons, List.intercalate_cons_cons, List.mem_append, List.mem_singleton,
        not_or] at ih ⊢
      exact ⟨⟨bar_not_mem_hexOf f, hne⟩, ih⟩

theorem splitOn_files {files : List QString} (hne : files ≠ []) :
    ([ampersand].intercalate (files.map hexOf)).splitOn ampersand = files.map hexOf := by
  apply List.splitOn_intercalate
  · intro part hpart
    obtain ⟨f, -, rfl⟩ := List.mem_map.mp hpart
    exact ampersand_not_mem_hexOf f
  · simpa using hne

theorem scheme_read {pkg : TaskPackage} (hvalid : pkg.isValid = true) :
    toInt ((Hex.fromHex (hexOf (toString pkg.scheme).toList)).map latin1) = pkg.scheme := by
  have hrange : 0 < pkg.scheme ∧ pkg.scheme < 9 := by
    unfold isValid protoMin protoMax at hvalid
    split at hvalid
    · cases hvalid
    · omega
  rw [hexOf, Hex.fromHex_ofBytes]
  generalize pkg.scheme = n at hrange
  obtain rfl | rfl | rfl | rfl | rfl | rfl | rfl | rfl :
      n = 1 ∨ n = 2 ∨ n = 3 ∨ n = 4 ∨ n = 5 ∨ n = 6 ∨ n = 7 ∨ n = 8 := by omega
  all_goals decide

/-! ## The round trip -/

theorem fromRawData_toRawData {pkg : TaskPackage} (hvalid : pkg.isValid = true) :
    fromRawData (toRawData pkg) = pkg.reread := by
  have hfiles : pkg.files ≠ [] := by
    unfold isValid at hvalid
    split at hvalid
    · cases hvalid
    · split at hvalid
      · cases hvalid
      · next h => exact fun h0 => h (by rw [h0]; rfl)
  have htag : bar ∉ tag := by decide
  have hsplit : (toRawData pkg).splitOn bar =
      [tag, [ampersand].intercalate (pkg.files.map hexOf), hexOf (toString pkg.scheme).toList,
        hexOf pkg.host, hexOf pkg.port, hexOf pkg.username, hexOf pkg.password,
        hexOf pkg.pubkey] := by
    unfold toRawData
    simp only [List.append_assoc, List.cons_append]
    rw [List.splitOn_append_cons_self_of_not_mem htag,
      List.splitOn_append_cons_self_of_not_mem (bar_not_mem_files _),
      List.splitOn_append_cons_self_of_not_mem (bar_not_mem_hexOf _),
      List.splitOn_append_cons_self_of_not_mem (bar_not_mem_hexOf _),
      List.splitOn_append_cons_self_of_not_mem (bar_not_mem_hexOf _),
      List.splitOn_append_cons_self_of_not_mem (bar_not_mem_hexOf _),
      List.splitOn_append_cons_self_of_not_mem (bar_not_mem_hexOf _),
      List.splitOn_eq_singleton (bar_not_mem_hexOf _)]
  unfold fromRawData reread
  rw [hsplit]
  simp only [ne_eq, not_true_eq_false, if_false, scheme_read hvalid, splitOn_files hfiles,
    List.map_map, ofHex_hexOf]
  congr 1
  exact List.map_congr_left fun f _ => ofHex_hexOf f

/-- **A package survives** just when all its characters have a byte of their own that is not
NUL. -/
theorem package_survives_iff (pkg : TaskPackage) (hvalid : pkg.isValid = true) :
    fromRawData (toRawData pkg) = pkg ↔
      ∀ text ∈ pkg.texts, ∀ c ∈ text, 0 < c.toNat ∧ c.toNat < 256 := by
  rw [fromRawData_toRawData hvalid]
  simp only [← fromLatin1_toAscii_iff]
  obtain ⟨scheme, files, host, port, username, password, pubkey⟩ := pkg
  simp only [reread, texts, TaskPackage.mk.injEq, true_and, List.mem_append, List.mem_cons,
    List.not_mem_nil, or_false]
  have hmap : files.map (fun f => fromLatin1 (toAscii f)) = files ↔
      ∀ f ∈ files, fromLatin1 (toAscii f) = f := by
    rw [← List.map_inj_left, List.map_id']
  rw [hmap]
  constructor
  · rintro ⟨hfiles, hhost, hport, husername, hpassword, hpubkey⟩ text
      (htext | rfl | rfl | rfl | rfl | rfl)
    · exact hfiles text htext
    · exact hhost
    · exact hport
    · exact husername
    · exact hpassword
    · exact hpubkey
  · intro h
    exact ⟨fun f hf => h f (.inl hf), h _ (by simp), h _ (by simp), h _ (by simp), h _ (by simp),
      h _ (by simp)⟩

def latinPackage : TaskPackage where
  scheme := 2
  files := ["/a&b".toList, [], [Char.ofNat 0xE9]]
  host := "h".toList

theorem package_survives_latin : fromRawData (toRawData latinPackage) = latinPackage := by
  have hall : latinPackage.texts.all (fun text =>
      text.all fun c => 0 < c.toNat && c.toNat < 256) = true := by decide
  refine (package_survives_iff latinPackage (by decide)).mpr ?_
  simpa only [List.all_eq_true, Bool.and_eq_true, decide_eq_true_eq] using hall

theorem package_loses_file :
    isValid { scheme := 2, files := [[Char.ofNat 0x4E2D]] } = true ∧
    fromRawData (toRawData { scheme := 2, files := [[Char.ofNat 0x4E2D]] }) =
      { scheme := 2, files := [['?']] } ∧
    fromRawData (toRawData { scheme := 2, files := [[Char.ofNat 0x4E2D]] }) ≠
      { scheme := 2, files := [[Char.ofNat 0x4E2D]] } := by
  -- The file `中` becomes a question mark.
  decide

end TaskPackage

end NullFxp
