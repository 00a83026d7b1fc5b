import CeDrive.Digits
import CeDrive.OsPath
import Mathlib.Logic.Equiv.List

/-!
# Downloads

`Store::get_file_to_path` of `crates/ce-drive-core/src/store.rs`. The manifest of an object is
fetched by the object's cid, its chunks by theirs. A chunk is checked against its cid, the
manifest is not : with a store that answers what it likes, no object cid fixes the bytes that
are written, unless the size limit is zero. It does against stores that answer it with bytes
that have it (`download_determined_iff`).

The store and the file system are a `World` : every call may fail, and the store may give
another answer each time. A download stays far below `u64::MAX` bytes.
-/

namespace CeDrive

abbrev Bytes := List UInt8

def MANIFEST_KIND_V1 : String := "ce-object-v1"

/-- `ce_rs::data::Manifest`. -/
structure Manifest where
  kind : String
  chunkSize : UInt64
  totalSize : UInt64
  chunks : List String

/-- The content store. -/
structure Store where
  maxFileSize : UInt64

/-- The files on the disk. -/
abbrev Files := OsPath → Option Bytes

namespace Files

def create (files : Files) (path : OsPath) : Files :=
  Function.update files path (some [])

/-- Write at the end of an open file. -/
def append (files : Files) (path : OsPath) (bytes : Bytes) : Files :=
  Function.update files path (some ((files path).getD [] ++ bytes))

def remove (files : Files) (path : OsPath) : Files :=
  Function.update files path none

def rename (files : Files) (path dest : OsPath) : Files :=
  Function.update (files.remove path) dest (files path)

end Files

/-- The file system calls of a download. -/
inductive IoCall
  | create
  | write (i : ℕ)
  | flush
  | finalize
  | sync
  | rename

/-- The answers of the blob store, call by call, and the file system calls that succeed. -/
structure World where
  getBlob : ℕ → String → Except String Bytes
  works : IoCall → Bool

/-- Short form of a cid for error messages. -/
def shortCid (s : String) : String :=
  String.ofList (s.toList.take 16)

namespace Store

variable (blobCid : Bytes → String) (decode : Bytes → Option Manifest)

/-- The loop over the chunks : fetch each, check it, and append it to the partial file. -/
def fetchChunks (w : World) (tmp : OsPath) : ℕ → List String → ℕ → Files → Except String ℕ × Files
  | _, [], written, files => (.ok written, files)
  | i, cid :: cids, written, files =>
    match w.getBlob (i + 1) cid with
    | .error _ => (.error ("fetch chunk " ++ shortCid cid), files)
    | .ok chunk =>
      if blobCid chunk ≠ cid then
        (.error ("chunk verification failed: expected " ++ cid ++ ", got " ++ blobCid chunk),
          files.remove tmp)
      else if w.works (.write i) then
        fetchChunks w tmp (i + 1) cids (written + chunk.length) (files.append tmp chunk)
      else (.error ("write " ++ tmp.display), files)

/-- Flush, sync and rename the partial file into place. -/
def publish (w : World) (tmp dest : OsPath) (written : ℕ) (files : Files) :
    Except String ℕ × Files :=
  if !w.works .flush then (.error "flush", files)
  else if !w.works .finalize then (.error "finalize temp file", files)
  else if !w.works .sync then (.error "fsync temp file", files)
  else if !w.works .rename then
    (.error ("rename " ++ tmp.display ++ " -> " ++ dest.display), files)
  else (.ok written, files.rename tmp dest)

/-- Fetch a file by its object cid and write it to `dest`. -/
def getFileToPath (store : Store) (w : World) (files : Files) (objectCid : String)
    (dest : OsPath) : Except String ℕ × Files :=
  match w.getBlob 0 objectCid with
  | .error _ => (.error ("resolve manifest " ++ shortCid objectCid), files)
  | .ok manifestBytes =>
    match decode manifestBytes with
    | none => (.error (shortCid objectCid ++ " is not a v1 object manifest"), files)
    | some manifest =>
      if manifest.kind ≠ MANIFEST_KIND_V1 then
        (.error ("unsupported manifest kind: " ++ manifest.kind), files)
      else if manifest.totalSize > store.maxFileSize then
        (.error ("object " ++ shortCid objectCid ++ " is " ++ toString manifest.totalSize ++
          " bytes, exceeds the " ++ toString store.maxFileSize ++ "-byte limit"), files)
      else
        let tmp := dest.withExtension "ce-drive-partial"
        if !w.works .create then (.error ("create " ++ tmp.display), files)
        else
          match fetchChunks blobCid w tmp 0 manifest.chunks 0 (files.create tmp) with
          | (.error e, files) => (.error e, files)
          | (.ok written, files) =>
            if written ≠ manifest.totalSize.toNat then
              (.error ("reassembled size " ++ toString written ++ " != manifest total_size " ++
                toString manifest.totalSize), files.remove tmp)
            else publish w tmp dest written files

variable {blobCid decode} {store : Store} {w w' : World} {files files' after after' : Files}
  {tmp dest dest' : OsPath} {i n n' : ℕ} {cids : List String} {objectCid : String}

/-- A loop that succeeds appended chunks that have the cids. -/
theorem fetchChunks_eq_ok {old : Bytes} (hold : files tmp = some old)
    (h : fetchChunks blobCid w tmp i cids n files = (.ok n', after)) :
    ∃ chunks : List Bytes, chunks.map blobCid = cids ∧ n' = n + chunks.flatten.length ∧
      after tmp = some (old ++ chunks.flatten) := by
  induction cids generalizing i n files old with
  | nil =>
    obtain ⟨hn, rfl⟩ := Prod.mk.inj h
    exact ⟨[], rfl, (Except.ok.inj hn).symm, by simpa using hold⟩
  | cons cid cids ih =>
    rw [fetchChunks] at h
    cases hblob : w.getBlob (i + 1) cid with
    | error e => simp [hblob] at h
    | ok chunk =>
      simp only [hblob] at h
      split_ifs at h with hcid hwrite
      · cases h
      · have happend : files.append tmp chunk tmp = some (old ++ chunk) := by
          simp [Files.append, hold]
        obtain ⟨chunks, hmap, hn, hafter⟩ := ih happend h
        refine ⟨chunk :: chunks, ?_, ?_, ?_⟩
        · rw [List.map_cons, hmap, not_not.1 hcid]
        · rw [hn, List.flatten_cons, List.length_append, Nat.add_assoc]
        · rw [hafter, List.flatten_cons, List.append_assoc]
      · cases h

theorem publish_eq_ok (h : publish w tmp dest n files = (.ok n', after)) :
    after dest = files tmp := by
  unfold publish at h
  split_ifs at h
  · cases h
  · cases h
  · cases h
  · cases h
  · obtain ⟨-, rfl⟩ := Prod.mk.inj h
    simp [Files.rename]

/-- A download that succeeds wrote the chunks the manifest lists, the manifest being what the
store answered. -/
theorem getFileToPath_eq_ok
    (h : store.getFileToPath blobCid decode w files objectCid dest = (.ok n, after)) :
    ∃ bytes manifest, ∃ chunks : List Bytes,
      w.getBlob 0 objectCid = .ok bytes ∧ decode bytes = some manifest ∧
      manifest.totalSize ≤ store.maxFileSize ∧ chunks.map blobCid = manifest.chunks ∧
      chunks.flatten.length = manifest.totalSize.toNat ∧ after dest = some chunks.flatten := by
  unfold getFileToPath at h
  cases hblob : w.getBlob 0 objectCid with
  | error e => simp [hblob] at h
  | ok bytes =>
    cases hdec : decode bytes with
    | none => simp [hblob, hdec] at h
    | some manifest =>
      simp only [hblob, hdec] at h
      split_ifs at h with hkind hsize hcreate
      · cases h
      · cases h
      · cases h
      set tmp := dest.withExtension "ce-drive-partial"
      rcases hloop : fetchChunks blobCid w tmp 0 manifest.chunks 0 (files.create tmp) with
        ⟨e | written, files'⟩
      · simp [hloop] at h
      · simp only [hloop] at h
        split_ifs at h with hwritten
        · cases h
        have hempty : files.create tmp tmp = some [] := by simp [Files.create]
        obtain ⟨chunks, hmap, hlen, htmp⟩ := fetchChunks_eq_ok hempty hloop
        refine ⟨bytes, manifest, chunks, rfl, hdec, UInt64.not_lt.1 hsize, hmap, ?_, ?_⟩
        · rw [← not_not.1 hwritten, hlen, Nat.zero_add]
        · rw [publish_eq_ok h, htmp, List.nil_append]

/-! ## Two downloads of one object -/

variable (blobCid decode) in
/-- Two downloads of an object that succeed, each against a store that meets `p`, write the
same bytes. -/
def Determined (store : Store) (objectCid : String) (p : World → Prop) : Prop :=
  ∀ w w' files files' dest dest' n n' after after', p w → p w' →
    store.getFileToPath blobCid decode w files objectCid dest = (.ok n, after) →
    store.getFileToPath blobCid decode w' files' objectCid dest' = (.ok n', after') →
    after dest = after' dest'

variable (blobCid) in
/-- What the store answers to the object cid has that cid. -/
def Honest (objectCid : String) (w : World) : Prop :=
  ∀ bytes, w.getBlob 0 objectCid = .ok bytes → blobCid bytes = objectCid

theorem determined_honest (hcid : Function.Injective blobCid) :
    store.Determined blobCid decode objectCid (Honest blobCid objectCid) := by
  intro w w' files files' dest dest' n n' after after' hw hw' h h'
  obtain ⟨bytes, m, chunks, hblob, hdec, -, hmap, -, hafter⟩ := getFileToPath_eq_ok h
  obtain ⟨bytes', m', chunks', hblob', hdec', -, hmap', -, hafter'⟩ := getFileToPath_eq_ok h'
  obtain rfl : bytes = bytes' := hcid ((hw bytes hblob).trans (hw' bytes' hblob').symm)
  obtain rfl : m = m' := Option.some_injective _ (hdec.symm.trans hdec')
  rw [hafter, hafter', List.map_injective_iff.2 hcid (hmap.trans hmap'.symm)]

/-- Without room for a byte all files are empty. -/
theorem determined_of_maxFileSize (hmax : store.maxFileSize = 0) (p : World → Prop) :
    store.Determined blobCid decode objectCid p := by
  have hempty : ∀ w files dest n after,
      store.getFileToPath blobCid decode w files objectCid dest = (.ok n, after) →
      after dest = some [] := by
    intro w files dest n after h
    obtain ⟨bytes, m, chunks, -, -, hle, -, hlen, hafter⟩ := getFileToPath_eq_ok h
    rw [hmax] at hle
    have hzero : chunks.flatten.length = 0 := by
      rw [hlen, UInt64.le_zero_iff.1 hle]
      rfl
    rw [hafter, List.length_eq_zero_iff.1 hzero]
  rintro w w' files files' dest dest' n n' after after' - - h h'
  rw [hempty w files dest n after h, hempty w' files' dest' n' after' h']

/-- A store that answers the first call with `manifest` and all others with `chunk`. -/
def answering (manifest chunk : Bytes) : World where
  getBlob i _ := .ok (if i = 0 then manifest else chunk)
  works _ := true

/-- The manifest of a file of one chunk, and of no chunk. -/
def oneChunk (cid : String) : Manifest :=
  ⟨MANIFEST_KIND_V1, 1, 1, [cid]⟩

def noChunk : Manifest :=
  ⟨MANIFEST_KIND_V1, 1, 0, []⟩

theorem getFileToPath_noChunk {manifest : Bytes} (hdec : decode manifest = some noChunk) :
    ∃ after, store.getFileToPath blobCid decode (answering manifest []) files objectCid dest =
      (.ok 0, after) ∧ after dest = some [] := by
  refine ⟨(files.create (dest.withExtension "ce-drive-partial")).rename
    (dest.withExtension "ce-drive-partial") dest, ?_, by simp [Files.rename, Files.create]⟩
  simp [getFileToPath, answering, hdec, noChunk, fetchChunks, publish]

theorem getFileToPath_oneChunk {manifest chunk : Bytes} (hmax : store.maxFileSize ≠ 0)
    (hchunk : chunk.length = 1) (hdec : decode manifest = some (oneChunk (blobCid chunk))) :
    ∃ after, store.getFileToPath blobCid decode (answering manifest chunk) files objectCid dest =
      (.ok 1, after) ∧ after dest = some chunk := by
  refine ⟨((files.create (dest.withExtension "ce-drive-partial")).append
    (dest.withExtension "ce-drive-partial") chunk).rename
    (dest.withExtension "ce-drive-partial") dest, ?_, ?_⟩
  · have hsize : ¬1 > store.maxFileSize := fun hgt =>
      hmax (UInt64.le_zero_iff.1 (UInt64.lt_one_iff.1 hgt ▸ UInt64.le_refl _))
    simp [getFileToPath, answering, hdec, oneChunk, fetchChunks, publish, hchunk, hsize]
  · simp [Files.rename, Files.create, Files.append]

/-- Two stores that list different chunks for one object. -/
theorem not_determined (hdecode : ∀ manifest, ∃ bytes, decode bytes = some manifest)
    (hmax : store.maxFileSize ≠ 0) : ¬store.Determined blobCid decode objectCid fun _ => True := by
  intro h
  obtain ⟨none, hnone⟩ := hdecode noChunk
  obtain ⟨one, hone⟩ := hdecode (oneChunk (blobCid [0]))
  let dest : OsPath := ⟨true, ["f"]⟩
  let files : Files := fun _ => .none
  obtain ⟨after, hrun, hafter⟩ := getFileToPath_noChunk hnone
  obtain ⟨after', hrun', hafter'⟩ := getFileToPath_oneChunk hmax rfl hone
  have heq := h _ _ files files dest dest 0 1 after after' trivial trivial hrun hrun'
  rw [hafter, hafter'] at heq
  cases heq

/-- Download integrity. With a collision-free `blob_cid`, all downloads of an object that
succeed write the same bytes, whatever the stores answer, if and only if the size limit is
zero. They write the same bytes against stores that answer the object cid with bytes that have
it. -/
theorem download_determined_iff (hcid : Function.Injective blobCid)
    (hdecode : ∀ manifest, ∃ bytes, decode bytes = some manifest) (store : Store)
    (objectCid : String) :
    (store.Determined blobCid decode objectCid (fun _ => True) ↔ store.maxFileSize = 0) ∧
      store.Determined blobCid decode objectCid (Honest blobCid objectCid) := by
  refine ⟨⟨fun h => ?_, fun hmax => determined_of_maxFileSize hmax _⟩, determined_honest hcid⟩
  by_contra hmax
  exact not_determined hdecode hmax h

/-! ## A codec -/

/-- A cid that spells the bytes. -/
def spell (bytes : Bytes) : String :=
  String.ofList (bytes.map fun b => Char.ofNat b.toNat)

theorem spell_injective : Function.Injective spell := by
  have hleft : Function.LeftInverse
      (fun s : String => s.toList.map fun c => UInt8.ofNat c.toNat) spell := fun bytes => by
    simp [spell, Function.comp_def, Digits.toUInt8_ofNat_toNat]
  exact hleft.injective

/-- A manifest is numbered, and written as that many bytes. -/
def encodeNumbered (m : Manifest) : Bytes :=
  let chars (s : String) := s.toList.map Char.toNat
  List.replicate (Encodable.encode
    (chars m.kind, m.chunkSize.toNat, m.totalSize.toNat, m.chunks.map chars)) 0

def decodeNumbered (bytes : Bytes) : Option Manifest :=
  let text (l : List ℕ) := String.ofList (l.map Char.ofNat)
  (Encodable.decode bytes.length : Option (List ℕ × ℕ × ℕ × List (List ℕ))).map fun p =>
    ⟨text p.1, UInt64.ofNat p.2.1, UInt64.ofNat p.2.2.1, p.2.2.2.map text⟩

theorem decodeNumbered_encodeNumbered (m : Manifest) : decodeNumbered (encodeNumbered m) = some m := by
  simp [decodeNumbered, encodeNumbered, Function.comp_def]

/-- A store with a limit of a hundred bytes. -/
theorem download_determined_iff_hundred :
    (Determined spell decodeNumbered ⟨100⟩ "x" (fun _ => True) ↔ (100 : UInt64) = 0) ∧
      Determined spell decodeNumbered ⟨100⟩ "x" (Honest spell "x") :=
  download_determined_iff spell_injective (fun m => ⟨_, decodeNumbered_encodeNumbered m⟩) ⟨100⟩ "x"

/-- One store answers the object with an empty manifest, another with one of a byte. -/
theorem download_not_determined : ¬Determined spell decodeNumbered ⟨100⟩ "x" fun _ => True :=
  not_determined (fun m => ⟨_, decodeNumbered_encodeNumbered m⟩) (by decide)

end Store

end CeDrive
