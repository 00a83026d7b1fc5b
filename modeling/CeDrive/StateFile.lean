import CeDrive.Audit
import CeDrive.Download
import CeDrive.DriveRun
import CeDrive.Volumes

/-!
# The files of a drive

`crates/ce-drive-cli/src/main.rs`. The persisted state of a drive is one file, the state in
bincode behind a magic header, compressed by zstd. An earlier version kept it as JSON; such a
file is read if there is no state file, and removed once one is saved. The audit journal is a
second file, in JSON. The encodings are library code : a `Codec` decodes what it encoded.

A save writes a temporary file, syncs it and renames it over the file. Temporary files are told
from the others by their extension (`kept_stateFile`, `not_kept_tmp_state`), so that a save is
an atomic replacement (`Volumes.Safe.replace`).
-/

open Volumes

namespace CeDrive

deriving instance DecidableEq for DriveState

/-! ## Encoding -/

/-- `bincode`, `zstd` and `serde_json` on states and journals. -/
structure Codec where
  ids : NodeIds
  serialize : DriveState → Except String Bytes
  deserialize : Bytes → Except String DriveState
  compress : Bytes → Except String Bytes
  decompress : Bytes → Except String Bytes
  parseJson : String → Except String DriveState
  journalToJson : AuditJournal → Except String String
  parseJournal : String → Except String AuditJournal
  deserialize_of_serialize : ∀ {s b}, serialize s = .ok b → deserialize b = .ok s
  decompress_of_compress : ∀ {b z}, compress b = .ok z → decompress z = .ok b
  parseJournal_of_journalToJson : ∀ {j s}, journalToJson j = .ok s →
    trim s ≠ "" ∧ parseJournal s = .ok j

/-- `read_to_string` : the bytes must be UTF-8. -/
def textOf (b : Bytes) : Option String :=
  String.fromUTF8? ⟨b.toArray⟩

/-- `as_bytes`. -/
def bytesOf (s : String) : Bytes :=
  s.toUTF8.data.toList

theorem textOf_bytesOf (s : String) : textOf (bytesOf s) = some s := by
  have hbytes : (⟨(bytesOf s).toArray⟩ : ByteArray) = s.toUTF8 := rfl
  rw [textOf, hbytes]
  exact dif_pos s.isValidUTF8

/-- `b"CEDRIVE1"`. -/
def CEDRIVE_MAGIC : Bytes :=
  [67, 69, 68, 82, 73, 86, 69, 49]

namespace Codec

variable (C : Codec)

def encodeState (state : DriveState) : Except String Bytes :=
  match C.serialize state with
  | .error _ => .error "bincode-encode drive state"
  | .ok body => (C.compress (CEDRIVE_MAGIC ++ body)).mapError fun _ => "zstd-compress drive state"

def decodeState (bytes : Bytes) : Except String DriveState :=
  match C.decompress bytes with
  | .error _ => .error "zstd-decompress drive state"
  | .ok framed =>
    if framed.length < CEDRIVE_MAGIC.length ∨ framed.take CEDRIVE_MAGIC.length ≠ CEDRIVE_MAGIC then
      .error "not a valid .cedrive file (bad magic header) — refusing to load corrupt state"
    else (C.deserialize (framed.drop CEDRIVE_MAGIC.length)).mapError
      fun _ => "bincode-decode drive state"

/-- What was encoded is decoded. -/
theorem decodeState_of_encodeState {state : DriveState} {bytes : Bytes}
    (h : C.encodeState state = .ok bytes) : C.decodeState bytes = .ok state := by
  unfold encodeState at h
  cases hs : C.serialize state with
  | error e => simp [hs] at h
  | ok body =>
    rw [hs] at h
    have hz : C.compress (CEDRIVE_MAGIC ++ body) = .ok bytes := by
      cases hc : C.compress (CEDRIVE_MAGIC ++ body) with
      | error e => simp [hc, Except.mapError] at h
      | ok z => simpa [hc, Except.mapError] using h
    have hmagic : ¬((CEDRIVE_MAGIC ++ body).length < CEDRIVE_MAGIC.length ∨
        (CEDRIVE_MAGIC ++ body).take CEDRIVE_MAGIC.length ≠ CEDRIVE_MAGIC) := by
      simp
    rw [decodeState, C.decompress_of_compress hz]
    simp only [if_neg hmagic, List.drop_left', C.deserialize_of_serialize hs]
    rfl

/-- `to_json`, as bytes. -/
def encodeJournal (j : AuditJournal) : Except String Bytes :=
  match C.journalToJson j with
  | .error _ => .error "serialize audit journal"
  | .ok s => .ok (bytesOf s)

/-- `from_json` on what `load_journal` reads. A file that is no text is passed over. -/
def decodeJournal (bytes : Bytes) : Except String AuditJournal :=
  match textOf bytes with
  | none => .ok .new
  | some s =>
    if trim s = "" then .ok .new else (C.parseJournal s).mapError fun _ => "parse audit journal"

theorem decodeJournal_of_encodeJournal {j : AuditJournal} {bytes : Bytes}
    (h : C.encodeJournal j = .ok bytes) : C.decodeJournal bytes = .ok j := by
  unfold encodeJournal at h
  cases hs : C.journalToJson j with
  | error e => simp [hs] at h
  | ok s =>
    simp only [hs] at h
    obtain rfl := Except.ok.inj h
    obtain ⟨hblank, hparse⟩ := C.parseJournal_of_journalToJson hs
    rw [decodeJournal, textOf_bytesOf]
    simp only [if_neg hblank, hparse]
    rfl

theorem trim_dashes_ne (n : ℕ) : trim (String.ofList (List.replicate (n + 1) '-')) ≠ "" := by
  intro h
  have hstart : (trimStart (String.ofList (List.replicate (n + 1) '-'))).toList =
      '-' :: List.replicate n '-' := by
    rw [trimStart, String.toList_ofList, String.toList_ofList, List.replicate_succ]
    exact List.dropWhile_cons_of_neg (by decide)
  have hlist := congrArg String.toList h
  rw [trim, trimEnd, hstart, String.toList_ofList] at hlist
  exact absurd (List.rdropWhile_eq_nil_iff.1 hlist '-' List.mem_cons_self) (by decide)

/-- States and journals numbered by their places in lists. -/
def table (states : List DriveState) (journals : List AuditJournal) : Codec where
  ids := .zeros
  serialize s := if states.idxOf s < 256 ∧ s ∈ states then .ok [(states.idxOf s).toUInt8]
    else .error "unknown"
  deserialize
    | [i] => match states[i.toNat]? with
      | some s => .ok s
      | none => .error "out of range"
    | _ => .error "length"
  compress := .ok
  decompress := .ok
  parseJson _ := .error "JSON"
  journalToJson j := if j ∈ journals then
    .ok (String.ofList (List.replicate (journals.idxOf j + 1) '-')) else .error "unknown"
  parseJournal s := match journals[s.toList.length - 1]? with
    | some j => .ok j
    | none => .error "out of range"
  deserialize_of_serialize {s b} h := by
    split_ifs at h with hs
    obtain rfl := Except.ok.inj h
    have hnat : ((states.idxOf s).toUInt8).toNat = states.idxOf s := by
      simpa using hs.1
    have hget : states[(states.idxOf s).toUInt8.toNat]? = some s := by
      rw [hnat, List.getElem?_idxOf hs.2]
    simp only [hget]
  decompress_of_compress h := (Except.ok.inj h) ▸ rfl
  parseJournal_of_journalToJson {j s} h := by
    split_ifs at h with hj
    obtain rfl := Except.ok.inj h
    have hlen : (String.ofList (List.replicate (journals.idxOf j + 1) '-')).toList.length - 1 =
        journals.idxOf j := by simp
    have hget : journals[(String.ofList (List.replicate (journals.idxOf j + 1) '-')).toList.length - 1]? =
        some j := by
      rw [hlen, List.getElem?_idxOf hj]
    simp only [hget, and_true]
    exact trim_dashes_ne _

end Codec

/-! ## Paths -/

/-- Where a drive is kept. -/
structure Paths where
  name : String
  stateFile : OsPath
  legacyJson : OsPath
  journalFile : OsPath

/-- `Paths::resolve` for a base directory. -/
def Paths.resolve (base : OsPath) (name : String) : Paths :=
  ⟨name, base.join (name ++ ".cedrive"), base.join (name ++ ".json"), base.join (name ++ ".audit.json")⟩

/-- The disk of a process. -/
abbrev DataDir := Volume OsPath Bytes

namespace Paths

def notFound (p : Paths) : String :=
  "drive '" ++ p.name ++ "' not found — run `ce-drive init` (looked at " ++ p.stateFile.display ++ ")"

section Load

variable (C : Codec) (p : Paths) (read : OsPath → Option Bytes)

/-- `Paths::exists`. -/
def isThere : Bool :=
  (read p.stateFile).isSome || (read p.legacyJson).isSome

/-- Load the state : the state file, else the file of an earlier version. -/
def loadState : Except String DriveState :=
  match read p.stateFile with
  | some bytes => C.decodeState bytes
  | none =>
    match read p.legacyJson with
    | some bytes =>
      match textOf bytes with
      | none => .error ("read " ++ p.legacyJson.display)
      | some s => (C.parseJson s).mapError fun _ => "parse legacy JSON drive state"
    | none => .error p.notFound

def loadJournal : Except String AuditJournal :=
  match read p.journalFile with
  | some bytes => C.decodeJournal bytes
  | none => .ok .new

end Load

variable (p : Paths)

/-- The calls of `write_atomic`. -/
def writeAtomic (path : OsPath) (bytes : Bytes) : List (Volumes.Call OsPath Bytes) :=
  replaceCalls (path.withExtension "tmp") path [] bytes

/-- The calls of `save_state` on a state that encodes to `bytes`. -/
def saveCalls (v : DataDir) (bytes : Bytes) : List (Volumes.Call OsPath Bytes) :=
  writeAtomic p.stateFile bytes ++
    (if (v.read p.legacyJson).isSome then [p.legacyJson] else []).map .remove

/-- The calls of `save_journal` on a journal that encodes to `bytes`. -/
def saveJournalCalls (bytes : Bytes) : List (Volumes.Call OsPath Bytes) :=
  writeAtomic p.journalFile bytes

end Paths

/-! ## Temporary files -/

/-- A file with the extension of temporary files. -/
def OsPath.IsTmp (p : OsPath) : Prop :=
  ∃ s, p.comps.getLast? = some (s ++ ".tmp")

/-- The files that are not temporary. -/
def Kept (p : OsPath) : Prop :=
  ¬p.IsTmp

/-- The file name of a path that ends in a text without a slash ends in that text. -/
theorem getLast?_join (base : OsPath) (s : String) : ∃ piece, ∀ t : String, '/' ∉ t.toList →
    2 ≤ t.toList.length → (base.join (s ++ t)).comps.getLast? = some (piece ++ t) := by
  obtain ⟨init, piece, heq⟩ := OsPath.exists_comps_append s
  refine ⟨piece, fun t ht hlong => ?_⟩
  have hlast : (OsPath.ofString (s ++ t)).comps.getLast? = some (piece ++ t) := by
    rw [heq t ht hlong, List.getLast?_concat]
  unfold OsPath.join
  split_ifs
  · exact hlast
  · rw [List.getLast?_append, hlast]
    rfl

/-- The temporary file of a file with another extension. -/
theorem isTmp_withExtension {p : OsPath} {piece t : String} (h : p.comps.getLast? = some (piece ++ t))
    (hlong : 3 ≤ t.toList.length) : (p.withExtension "tmp").IsTmp := by
  have hne : piece ++ t ≠ ".." := by
    intro heq
    have hlen : 3 ≤ (piece ++ t).toList.length := by
      rw [String.toList_append, List.length_append]
      omega
    rw [heq] at hlen
    exact absurd hlen (by decide)
  refine ⟨OsPath.fileStem (piece ++ t), ?_⟩
  rw [OsPath.withExtension, h]
  simp only [if_neg hne]
  rw [List.getLast?_concat, String.append_assoc]
  rfl

/-- A file whose name ends in another letter than `p` is kept. -/
theorem kept_of_getLast? {p : OsPath} {piece t : String} (h : p.comps.getLast? = some (piece ++ t))
    {c : Char} (hc : t.toList.getLast? = some c) (hne : c ≠ 'p') : Kept p := by
  rintro ⟨s, hs⟩
  have hname := Option.some_injective _ (h.symm.trans hs)
  have hlast := congrArg (fun u => u.toList.getLast?) hname
  simp only [String.toList_append, List.getLast?_append, hc] at hlast
  exact hne (Option.some_injective _ hlast)

theorem ne_of_getLast? {p q : OsPath} {piece t piece' t' : String}
    (h : p.comps.getLast? = some (piece ++ t)) (h' : q.comps.getLast? = some (piece' ++ t'))
    {c c' : Char} (hc : t.toList.getLast? = some c) (hc' : t'.toList.getLast? = some c')
    (hne : c ≠ c') : p ≠ q := by
  rintro rfl
  have hlast := congrArg (fun u => u.toList.getLast?) (Option.some_injective _ (h.symm.trans h'))
  simp only [String.toList_append, List.getLast?_append, hc, hc'] at hlast
  exact hne (Option.some_injective _ hlast)

namespace Paths

variable (base : OsPath) (name : String)

/-- The file names of a drive have one stem. -/
theorem exists_stem : ∃ stem,
    (resolve base name).stateFile.comps.getLast? = some (stem ++ ".cedrive") ∧
      (resolve base name).legacyJson.comps.getLast? = some (stem ++ ".json") ∧
      (resolve base name).journalFile.comps.getLast? = some (stem ++ ".audit.json") := by
  obtain ⟨stem, h⟩ := getLast?_join base name
  exact ⟨stem, h _ (by decide) (by decide), h _ (by decide) (by decide),
    h _ (by decide) (by decide)⟩

theorem kept_stateFile : Kept (resolve base name).stateFile :=
  have ⟨_, h, _⟩ := exists_stem base name
  kept_of_getLast? h rfl (by decide)

theorem kept_legacyJson : Kept (resolve base name).legacyJson :=
  have ⟨_, _, h, _⟩ := exists_stem base name
  kept_of_getLast? h rfl (by decide)

theorem kept_journalFile : Kept (resolve base name).journalFile :=
  have ⟨_, _, _, h⟩ := exists_stem base name
  kept_of_getLast? h rfl (by decide)

theorem stateFile_ne_legacyJson : (resolve base name).stateFile ≠ (resolve base name).legacyJson :=
  have ⟨_, h, h', _⟩ := exists_stem base name
  ne_of_getLast? h h' rfl rfl (by decide)

theorem stateFile_ne_journalFile : (resolve base name).stateFile ≠ (resolve base name).journalFile :=
  have ⟨_, h, _, h'⟩ := exists_stem base name
  ne_of_getLast? h h' rfl rfl (by decide)

theorem legacyJson_ne_journalFile :
    (resolve base name).legacyJson ≠ (resolve base name).journalFile := by
  obtain ⟨stem, -, h, h'⟩ := exists_stem base name
  intro heq
  rw [heq, h'] at h
  have hlen := congrArg (fun u => u.toList.length) (Option.some_injective _ h)
  simp [String.toList_append] at hlen

theorem not_kept_tmp_state : ¬Kept ((resolve base name).stateFile.withExtension "tmp") := fun hkept =>
  have ⟨_, h, _⟩ := exists_stem base name
  hkept (isTmp_withExtension h (by decide))

theorem not_kept_tmp_journal : ¬Kept ((resolve base name).journalFile.withExtension "tmp") :=
  fun hkept =>
    have ⟨_, _, _, h⟩ := exists_stem base name
    hkept (isTmp_withExtension h (by decide))

end Paths

end CeDrive
