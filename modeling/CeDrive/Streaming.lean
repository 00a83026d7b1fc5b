import CeDrive.Content
import CeDrive.Download
import CeDrive.Pieces

/-!
# Uploads

`Store::put_bytes`, `Store::put_file` and `fill_chunk` of `crates/ce-drive-core/src/store.rs`.
`put_bytes` has the bytes in memory and leaves the cutting to `rdev::chunk::chunk_bytes`,
`put_file` reads a file chunk by chunk. However the file answers the reads, the loop streams
the pieces of `CHUNK_SIZE` bytes of what it holds (`streamLoop_eq_ok`), so both build one
manifest (`putFile_agrees`).

The blob store is a `Client` : every call may fail, and be answered in another way each time.
A file has fewer than `2 ^ 64` bytes.
-/

open Pieces

namespace CeDrive

def CHUNK_SIZE : ℕ := 1024 * 1024

/-! ## Readers -/

/-- What happens at a read : some of the bytes come, at most `n + 1`, or none do. -/
inductive Turn
  | short (n : ℕ)
  | interrupted
  | failed
  deriving DecidableEq

inductive ErrorKind
  | interrupted
  | other

/-- An open file : what is left of it, and how the next reads go. After these a read gets
all that fits. -/
structure Reader where
  bytes : Bytes
  turns : List Turn

namespace Reader

/-- `Read::read` into a buffer of `room` bytes. -/
def read (reader : Reader) (room : ℕ) : Except ErrorKind Bytes × Reader :=
  match reader.turns with
  | [] => (.ok (reader.bytes.take room), ⟨reader.bytes.drop room, []⟩)
  | .short n :: turns =>
    (.ok (reader.bytes.take (min (n + 1) room)), ⟨reader.bytes.drop (min (n + 1) room), turns⟩)
  | .interrupted :: turns => (.error .interrupted, ⟨reader.bytes, turns⟩)
  | .failed :: turns => (.error .other, ⟨reader.bytes, turns⟩)

/-- How many reads may still do something. -/
def left (reader : Reader) : ℕ :=
  reader.bytes.length + reader.turns.length

variable {reader reader' : Reader} {room : ℕ} {part : Bytes} {e : ErrorKind}

/-- The bytes that come are the next ones. -/
theorem read_eq_ok (h : reader.read room = (.ok part, reader')) :
    part.length ≤ room ∧ reader.bytes = part ++ reader'.bytes ∧ reader'.turns <:+ reader.turns := by
  obtain ⟨bytes, turns⟩ := reader
  cases turns with
  | nil =>
    obtain ⟨⟨rfl⟩, rfl⟩ := h
    exact ⟨List.length_take_le .., (List.take_append_drop ..).symm, List.suffix_rfl⟩
  | cons turn turns =>
    cases turn with
    | short n =>
      obtain ⟨⟨rfl⟩, rfl⟩ := h
      exact ⟨(List.length_take_le ..).trans (min_le_right ..), (List.take_append_drop ..).symm,
        List.suffix_cons ..⟩
    | interrupted => cases h
    | failed => cases h

/-- No bytes come only at the end of the file. -/
theorem bytes_eq_nil_of_read (hroom : 0 < room) (h : reader.read room = (.ok [], reader')) :
    reader.bytes = [] := by
  obtain ⟨bytes, turns⟩ := reader
  cases turns with
  | nil =>
    have htake : bytes.take room = [] := Except.ok.inj (Prod.mk.inj h).1
    exact (List.take_eq_nil_iff.1 htake).resolve_left hroom.ne'
  | cons turn turns =>
    cases turn with
    | short n =>
      have htake : bytes.take (min (n + 1) room) = [] := Except.ok.inj (Prod.mk.inj h).1
      exact (List.take_eq_nil_iff.1 htake).resolve_left (by omega)
    | interrupted => cases h
    | failed => cases h

/-- A read that fails takes one of the turns. -/
theorem read_eq_error (h : reader.read room = (.error e, reader')) :
    reader'.bytes = reader.bytes ∧ ∃ turn, reader.turns = turn :: reader'.turns ∧
      (e = .other → turn = .failed) := by
  obtain ⟨bytes, turns⟩ := reader
  cases turns with
  | nil => cases h
  | cons turn turns =>
    cases turn with
    | short n => cases h
    | interrupted =>
      obtain ⟨⟨rfl⟩, rfl⟩ := h
      exact ⟨rfl, _, rfl, nofun⟩
    | failed =>
      obtain ⟨⟨rfl⟩, rfl⟩ := h
      exact ⟨rfl, _, rfl, fun _ => rfl⟩

theorem left_lt_of_ok {b : UInt8} (h : reader.read room = (.ok (b :: part), reader')) :
    reader'.left < reader.left := by
  obtain ⟨-, hbytes, hturns⟩ := read_eq_ok h
  have hlength := hturns.length_le
  simp only [left, hbytes, List.length_append, List.length_cons]
  omega

theorem left_lt_of_error (h : reader.read room = (.error e, reader')) :
    reader'.left < reader.left := by
  obtain ⟨hbytes, turn, hturns, -⟩ := read_eq_error h
  simp [left, hbytes, hturns]

/-- `fill_chunk` : `buf` is the part of the buffer that is filled. -/
def fillChunk (size : ℕ) (reader : Reader) (buf : Bytes) : Except String Bytes × Reader :=
  if buf.length < size then
    match _ : reader.read (size - buf.length) with
    | (.ok [], reader') => (.ok buf, reader')
    | (.ok (b :: part), reader') => fillChunk size reader' (buf ++ b :: part)
    | (.error .interrupted, reader') => fillChunk size reader' buf
    | (.error .other, reader') => (.error "read chunk", reader')
  else (.ok buf, reader)
termination_by reader.left
decreasing_by
  · exact left_lt_of_ok ‹_›
  · exact left_lt_of_error ‹_›

variable {size : ℕ} {buf out : Bytes}

theorem left_fillChunk (h : fillChunk size reader buf = (.ok out, reader')) :
    reader'.left + out.length ≤ reader.left + buf.length := by
  fun_induction fillChunk size reader buf with
  | case1 reader buf hlt reader₁ hread =>
    obtain ⟨⟨rfl⟩, rfl⟩ := h
    obtain ⟨-, hbytes, hturns⟩ := read_eq_ok hread
    have hlength := hturns.length_le
    simp only [left, hbytes, List.nil_append]
    omega
  | case2 reader buf hlt b part reader₁ hread ih =>
    obtain ⟨-, hbytes, hturns⟩ := read_eq_ok hread
    have hlength := hturns.length_le
    have hrest := ih h
    simp only [left, hbytes, List.length_append] at hrest ⊢
    omega
  | case3 reader buf hlt reader₁ hread ih =>
    have hlt := left_lt_of_error hread
    have hrest := ih h
    omega
  | case4 reader buf hlt reader₁ hread => cases h
  | case5 reader buf hge =>
    obtain ⟨⟨rfl⟩, rfl⟩ := h
    exact le_rfl

/-- A buffer that is filled holds all that fits, however the reads went. -/
theorem fillChunk_eq_ok (hbuf : buf.length ≤ size)
    (h : fillChunk size reader buf = (.ok out, reader')) :
    out = buf ++ reader.bytes.take (size - buf.length) ∧
      reader'.bytes = reader.bytes.drop (size - buf.length) ∧ reader'.turns <:+ reader.turns := by
  fun_induction fillChunk size reader buf with
  | case1 reader buf hlt reader₁ hread =>
    obtain ⟨⟨rfl⟩, rfl⟩ := h
    obtain ⟨-, hbytes, hturns⟩ := read_eq_ok hread
    have hend : reader.bytes = [] := bytes_eq_nil_of_read (by omega) hread
    rw [List.nil_append] at hbytes
    simp [hend, ← hbytes, hturns]
  | case2 reader buf hlt b part reader₁ hread ih =>
    obtain ⟨hroom, hbytes, hturns⟩ := read_eq_ok hread
    obtain ⟨rfl, hdrop, hturns'⟩ := ih (by rw [List.length_append]; omega) h
    have hleft : size - (buf ++ b :: part).length = size - buf.length - (b :: part).length := by
      rw [List.length_append]
      omega
    refine ⟨?_, ?_, hturns'.trans hturns⟩
    · rw [hbytes, List.take_append, List.take_of_length_le hroom, hleft, List.append_assoc]
    · rw [hdrop, hbytes, List.drop_append, List.drop_of_length_le hroom, hleft, List.nil_append]
  | case3 reader buf hlt reader₁ hread ih =>
    obtain ⟨hbytes, turn, hturns, -⟩ := read_eq_error hread
    obtain ⟨rfl, hdrop, hturns'⟩ := ih hbuf h
    rw [hbytes] at hdrop ⊢
    exact ⟨rfl, hdrop, hturns'.trans (hturns ▸ List.suffix_cons ..)⟩
  | case4 reader buf hlt reader₁ hread => cases h
  | case5 reader buf hge =>
    have hfull : size - buf.length = 0 := by omega
    obtain ⟨⟨rfl⟩, rfl⟩ := h
    simp [hfull]

/-- Only a read that fails for good fails the loop. -/
theorem exists_fillChunk (hread : Turn.failed ∉ reader.turns) (size : ℕ) (buf : Bytes) :
    ∃ out reader', fillChunk size reader buf = (.ok out, reader') := by
  fun_induction fillChunk size reader buf with
  | case1 reader buf hlt reader₁ h => exact ⟨_, _, rfl⟩
  | case2 reader buf hlt b part reader₁ h ih =>
    exact ih fun hmem => hread ((read_eq_ok h).2.2.subset hmem)
  | case3 reader buf hlt reader₁ h ih =>
    obtain ⟨-, turn, hturns, -⟩ := read_eq_error h
    exact ih fun hmem => hread (hturns ▸ List.mem_cons_of_mem _ hmem)
  | case4 reader buf hlt reader₁ h =>
    obtain ⟨-, turn, hturns, hturn⟩ := read_eq_error h
    exact absurd (hturns ▸ hturn rfl ▸ List.mem_cons_self) hread
  | case5 reader buf hge => exact ⟨_, _, rfl⟩

end Reader

/-! ## The blob store -/

/-- The answers of the blob store, call by call. -/
structure Client where
  getBlob : ℕ → String → Except String Bytes
  putBlob : ℕ → Bytes → Except String String

namespace Client

/-- `ce_rs` answers so for a blob that is not there. -/
def saysMissing (msg : String) : Prop :=
  "not found".toList <:+: msg.toList ∨ "404".toList <:+: msg.toList

instance (msg : String) : Decidable (saysMissing msg) :=
  inferInstanceAs (Decidable (_ ∨ _))

/-- `Store::missing_chunks`, from the `i`-th call on. -/
def missingChunks (client : Client) : ℕ → List String → Except String (List String)
  | _, [] => .ok []
  | i, cid :: cids =>
    match client.getBlob i cid with
    | .ok _ => client.missingChunks (i + 1) cids
    | .error msg =>
      if saysMissing msg then
        match client.missingChunks (i + 1) cids with
        | .ok missing => .ok (cid :: missing)
        | .error e => .error e
      else .error ("probe chunk " ++ shortCid cid)

/-- A store without faults : it has the blob or says it has not, and takes what it is given. -/
structure Works (blobCid : Bytes → String) (client : Client) : Prop where
  getBlob : ∀ i cid msg, client.getBlob i cid = .error msg → saysMissing msg
  putBlob : ∀ i bytes, client.putBlob i bytes = .ok (blobCid bytes)

theorem Works.exists_missingChunks {blobCid : Bytes → String} {client : Client}
    (h : client.Works blobCid) (i : ℕ) (cids : List String) :
    ∃ missing, client.missingChunks i cids = .ok missing := by
  induction cids generalizing i with
  | nil => exact ⟨[], rfl⟩
  | cons cid cids ih =>
    obtain ⟨missing, hmissing⟩ := ih (i + 1)
    rw [missingChunks]
    cases hget : client.getBlob i cid with
    | ok bytes => exact ⟨missing, hmissing⟩
    | error msg => simp [h.getBlob i cid msg hget, hmissing]

end Client

/-! ## The two uploads -/

structure ChunkedFile where
  manifest : Manifest
  fileCid : String

/-- What is recorded of an upload. -/
structure StoredFile where
  content : FileContent
  manifest : Manifest
  fileCid : String
  uploadedChunks : ℕ

/-- What the file system says of a file. -/
structure Metadata where
  len : ℕ
  mode : ℕ
  mtimeMs : ℕ

/-- Where the loop of `put_file` is : the calls made of the store, and its variables. The
hasher is what it was fed. -/
structure Streamed where
  calls : ℕ
  chunkCids : List String
  total : ℕ
  fileHasher : List Bytes
  uploaded : ℕ
  seen : List String

def Streamed.start : Streamed :=
  ⟨0, [], 0, [], 0, []⟩

def Streamed.manifest (s : Streamed) : Manifest :=
  ⟨MANIFEST_KIND_V1, .ofNat CHUNK_SIZE, .ofNat s.total, s.chunkCids⟩

namespace Store

variable (blobCid : Bytes → String) (encode : Manifest → Bytes) (fileHash : Bytes → String)
  (chunkBytes : Bytes → ChunkedFile × List (String × Bytes))
  (uploadMissing : List (String × Bytes) → List String → Except String ℕ)

/-- `put_bytes`, with `rdev::chunk::chunk_bytes` and `rdev::delta::upload_missing`. -/
def putBytes (store : Store) (client : Client) (bytes : Bytes) (mode mtimeMs : ℕ) :
    Except String StoredFile :=
  if bytes.length > store.maxFileSize.toNat then
    .error ("file is " ++ toString bytes.length ++ " bytes, exceeds the " ++
      toString store.maxFileSize ++ "-byte limit")
  else
    let (cf, chunks) := chunkBytes bytes
    let distinct := cf.manifest.chunks.eraseDups
    match client.missingChunks 0 distinct with
    | .error e => .error e
    | .ok missing =>
      match uploadMissing chunks missing with
      | .error _ => .error "delta upload of missing chunks"
      | .ok uploaded =>
        match client.putBlob distinct.length (encode cf.manifest) with
        | .error _ => .error "store object manifest"
        | .ok objectCid =>
          .ok ⟨FileContent.new objectCid cf.manifest.totalSize.toNat mode mtimeMs, cf.manifest,
            cf.fileCid, uploaded⟩

/-- The loop of `put_file` on a slice that is not empty. -/
def streamSlice (store : Store) (client : Client) (path : OsPath) (slice : Bytes) (s : Streamed) :
    Except String Streamed :=
  let total := s.total + slice.length
  if total > store.maxFileSize.toNat then
    .error ("file '" ++ path.display ++ "' exceeds the " ++ toString store.maxFileSize ++
      "-byte limit while streaming")
  else
    let ccid := blobCid slice
    let s := { s with
      total := total
      fileHasher := s.fileHasher ++ [slice]
      chunkCids := s.chunkCids ++ [ccid] }
    if ccid ∈ s.seen then .ok s
    else
      match client.missingChunks s.calls [ccid] with
      | .error e => .error e
      | .ok [] => .ok { s with calls := s.calls + 1, seen := ccid :: s.seen }
      | .ok (_ :: _) =>
        match client.putBlob (s.calls + 1) slice with
        | .error _ => .error "put chunk"
        | .ok stored =>
          if stored ≠ ccid then
            .error ("blob store returned " ++ stored ++ " for chunk " ++ ccid ++ " (hash mismatch)")
          else
            .ok { s with
              calls := s.calls + 2
              uploaded := s.uploaded + 1
              seen := ccid :: s.seen }

/-- The loop of `put_file`, up to the end of the file. -/
def streamLoop (store : Store) (client : Client) (path : OsPath) (reader : Reader) (s : Streamed) :
    Except String Streamed :=
  match _ : reader.fillChunk CHUNK_SIZE [] with
  | (.error e, _) => .error e
  | (.ok [], _) => .ok s
  | (.ok (b :: slice), reader') =>
    match streamSlice blobCid store client path (b :: slice) s with
    | .error e => .error e
    | .ok s => streamLoop store client path reader' s
termination_by reader.left
decreasing_by
  have hlt := Reader.left_fillChunk ‹_›
  simp only [List.length_cons, List.length_nil] at hlt
  omega

/-- `put_file` of a file, if it opens. -/
def putFile (store : Store) (client : Client) (path : OsPath) (metadata : Option Metadata)
    (file : Option Reader) : Except String StoredFile :=
  let mode := (metadata.map Metadata.mode).getD 0o644
  let mtimeMs := (metadata.map Metadata.mtimeMs).getD 0
  if metadata.any fun m => m.len > store.maxFileSize.toNat then
    .error ("file '" ++ path.display ++ "' is " ++ toString ((metadata.map Metadata.len).getD 0) ++
      " bytes, exceeds the " ++ toString store.maxFileSize ++ "-byte limit")
  else
    match file with
    | none => .error ("open " ++ path.display)
    | some reader =>
      match streamLoop blobCid store client path reader .start with
      | .error e => .error e
      | .ok s =>
        match client.putBlob s.calls (encode s.manifest) with
        | .error _ => .error "store object manifest"
        | .ok objectCid =>
          .ok ⟨FileContent.new objectCid s.total mode mtimeMs, s.manifest,
            fileHash s.fileHasher.flatten, s.uploaded⟩

variable {blobCid encode fileHash chunkBytes uploadMissing} {store : Store}
  {client client' : Client} {path : OsPath} {reader : Reader} {s s' : Streamed} {slice : Bytes}

theorem streamSlice_eq_ok (h : streamSlice blobCid store client path slice s = .ok s') :
    s'.total = s.total + slice.length ∧ s'.fileHasher = s.fileHasher ++ [slice] ∧
      s'.chunkCids = s.chunkCids ++ [blobCid slice] := by
  unfold streamSlice at h
  dsimp only at h
  split_ifs at h with hmax hseen
  · obtain rfl := Except.ok.inj h
    exact ⟨rfl, rfl, rfl⟩
  · split at h
    · cases h
    · obtain rfl := Except.ok.inj h
      exact ⟨rfl, rfl, rfl⟩
    · split at h
      · cases h
      · split_ifs at h
        obtain rfl := Except.ok.inj h
        exact ⟨rfl, rfl, rfl⟩

theorem exists_streamSlice (path : OsPath) (hclient : client.Works blobCid)
    (hmax : s.total + slice.length ≤ store.maxFileSize.toNat) :
    ∃ s', streamSlice blobCid store client path slice s = .ok s' := by
  obtain ⟨missing, hmissing⟩ := hclient.exists_missingChunks s.calls [blobCid slice]
  unfold streamSlice
  dsimp only
  rw [if_neg (not_lt.2 hmax), hmissing]
  split_ifs with hseen
  · exact ⟨_, rfl⟩
  · cases missing with
    | nil => exact ⟨_, rfl⟩
    | cons cid missing => simp [hclient.putBlob]

theorem pieces_of_fillChunk {b : UInt8} {reader' : Reader}
    (h : reader.fillChunk CHUNK_SIZE [] = (.ok (b :: slice), reader')) :
    pieces CHUNK_SIZE reader.bytes = (b :: slice) :: pieces CHUNK_SIZE reader'.bytes ∧
      reader.bytes.length = (b :: slice).length + reader'.bytes.length ∧
      reader'.turns <:+ reader.turns := by
  obtain ⟨hout, hbytes, hturns⟩ := Reader.fillChunk_eq_ok (Nat.zero_le _) h
  simp only [List.nil_append, List.length_nil, Nat.sub_zero] at hout hbytes
  have hne : reader.bytes ≠ [] := by
    rintro hnil
    rw [hnil, List.take_nil] at hout
    cases hout
  refine ⟨?_, ?_, hturns⟩
  · rw [pieces_of_ne_nil (by decide) hne, hout, hbytes]
  · rw [hout, hbytes, ← List.length_append, List.take_append_drop]

theorem bytes_of_fillChunk {reader' : Reader}
    (h : reader.fillChunk CHUNK_SIZE [] = (.ok [], reader')) : reader.bytes = [] := by
  have htake := (Reader.fillChunk_eq_ok (Nat.zero_le _) h).1
  rw [List.nil_append, List.length_nil, Nat.sub_zero] at htake
  exact (List.take_eq_nil_iff.1 htake.symm).resolve_left (by decide)

/-- The loop streams the pieces of the file. -/
theorem streamLoop_eq_ok (h : streamLoop blobCid store client path reader s = .ok s') :
    s'.total = s.total + reader.bytes.length ∧
      s'.fileHasher = s.fileHasher ++ pieces CHUNK_SIZE reader.bytes ∧
      s'.chunkCids = s.chunkCids ++ (pieces CHUNK_SIZE reader.bytes).map blobCid := by
  fun_induction streamLoop blobCid store client path reader s with
  | case1 reader s e reader' hfill => cases h
  | case2 reader s reader' hfill =>
    obtain rfl := Except.ok.inj h
    simp [bytes_of_fillChunk hfill]
  | case3 reader s b slice reader' hfill e hslice => cases h
  | case4 reader s b slice reader' hfill s₁ hslice ih =>
    obtain ⟨hpieces, hlength, -⟩ := pieces_of_fillChunk hfill
    obtain ⟨htotal, hhasher, hcids⟩ := streamSlice_eq_ok hslice
    obtain ⟨htotal', hhasher', hcids'⟩ := ih h
    refine ⟨?_, ?_, ?_⟩
    · rw [htotal', htotal, hlength, Nat.add_assoc]
    · rw [hhasher', hhasher, hpieces, List.append_assoc, List.singleton_append]
    · rw [hcids', hcids, hpieces, List.append_assoc, List.map_cons, List.singleton_append]

/-- A file within the limit that can be read is streamed to a store without faults. -/
theorem exists_streamLoop (path : OsPath) (hread : Turn.failed ∉ reader.turns)
    (hclient : client.Works blobCid)
    (hmax : s.total + reader.bytes.length ≤ store.maxFileSize.toNat) :
    ∃ s', streamLoop blobCid store client path reader s = .ok s' := by
  fun_induction streamLoop blobCid store client path reader s with
  | case1 reader s e reader' hfill =>
    obtain ⟨out, reader₁, hout⟩ := Reader.exists_fillChunk hread CHUNK_SIZE []
    rw [hfill] at hout
    cases hout
  | case2 reader s reader' hfill => exact ⟨s, rfl⟩
  | case3 reader s b slice reader' hfill e hslice =>
    obtain ⟨-, hlength, -⟩ := pieces_of_fillChunk hfill
    obtain ⟨s₁, hs₁⟩ := exists_streamSlice path hclient
      (show s.total + (b :: slice).length ≤ store.maxFileSize.toNat by omega)
    rw [hslice] at hs₁
    cases hs₁
  | case4 reader s b slice reader' hfill s₁ hslice ih =>
    obtain ⟨-, hlength, hturns⟩ := pieces_of_fillChunk hfill
    refine ih (fun hmem => hread (hturns.subset hmem)) ?_
    rw [(streamSlice_eq_ok hslice).1]
    omega

theorem putFile_eq_ok {metadata : Option Metadata} {file : StoredFile}
    (h : putFile blobCid encode fileHash store client path metadata (some reader) = .ok file) :
    ∃ s, streamLoop blobCid store client path reader .start = .ok s ∧
      file.manifest = s.manifest ∧
      client.putBlob s.calls (encode s.manifest) = .ok file.content.cid := by
  unfold putFile at h
  dsimp only at h
  split_ifs at h
  split at h
  · cases h
  · rename_i s hs
    split at h
    · cases h
    · rename_i cid hcid
      obtain rfl := Except.ok.inj h
      exact ⟨s, hs, rfl, hcid⟩

theorem putBytes_eq_ok {bytes : Bytes} {mode mtimeMs : ℕ} {mem : StoredFile}
    (h : putBytes encode chunkBytes uploadMissing store client bytes mode mtimeMs = .ok mem) :
    mem.manifest = (chunkBytes bytes).1.manifest ∧
      ∃ i, client.putBlob i (encode (chunkBytes bytes).1.manifest) = .ok mem.content.cid := by
  unfold putBytes at h
  dsimp only at h
  split_ifs at h
  split at h
  · cases h
  · split at h
    · cases h
    · split at h
      · cases h
      · rename_i cid hcid
        obtain rfl := Except.ok.inj h
        exact ⟨rfl, _, hcid⟩

theorem exists_putFile {metadata : Option Metadata} (path : OsPath)
    (hread : Turn.failed ∉ reader.turns) (hclient : client.Works blobCid)
    (hmax : reader.bytes.length ≤ store.maxFileSize.toNat)
    (hlen : ∀ m ∈ metadata, m.len ≤ store.maxFileSize.toNat) :
    ∃ file,
      putFile blobCid encode fileHash store client path metadata (some reader) = .ok file := by
  have hstart : Streamed.start.total + reader.bytes.length ≤ store.maxFileSize.toNat := by
    simpa [Streamed.start] using hmax
  obtain ⟨s, hs⟩ := exists_streamLoop path hread hclient hstart
  have hmeta : ¬metadata.any fun m => m.len > store.maxFileSize.toNat := by
    cases metadata with
    | none => exact Bool.false_ne_true
    | some m => simpa using hlen m rfl
  unfold putFile
  dsimp only
  rw [if_neg hmeta, hs]
  dsimp only
  rw [hclient.putBlob]
  exact ⟨_, rfl⟩

theorem exists_putBytes {bytes : Bytes} (mode mtimeMs : ℕ) (hclient : client.Works blobCid)
    (hupload : ∀ chunks missing, ∃ n, uploadMissing chunks missing = .ok n)
    (hmax : bytes.length ≤ store.maxFileSize.toNat) :
    ∃ mem, putBytes encode chunkBytes uploadMissing store client bytes mode mtimeMs = .ok mem := by
  obtain ⟨missing, hmissing⟩ :=
    hclient.exists_missingChunks 0 (chunkBytes bytes).1.manifest.chunks.eraseDups
  obtain ⟨n, hn⟩ := hupload (chunkBytes bytes).2 missing
  simp [putBytes, not_lt.2 hmax, hmissing, hn, hclient.putBlob]

/-- `put_file` builds the manifest that `put_bytes` gets for the bytes of the file, whatever
turns the reads take, from slices that make up the file. -/
theorem putFile_agrees
    (hchunk : ∀ bytes, (chunkBytes bytes).1.manifest =
      ⟨MANIFEST_KIND_V1, .ofNat CHUNK_SIZE, .ofNat bytes.length,
        (pieces CHUNK_SIZE bytes).map blobCid⟩)
    (hput : ∀ i bytes cid, client.putBlob i bytes = .ok cid → cid = blobCid bytes)
    (hput' : ∀ i bytes cid, client'.putBlob i bytes = .ok cid → cid = blobCid bytes)
    (reader : Reader) (path : OsPath) (metadata : Option Metadata) (mode mtimeMs : ℕ) :
    (∀ s, streamLoop blobCid store client path reader .start = .ok s →
      s.manifest = (chunkBytes reader.bytes).1.manifest ∧ s.fileHasher.flatten = reader.bytes) ∧
    (∀ file mem,
      putFile blobCid encode fileHash store client path metadata (some reader) = .ok file →
      putBytes encode chunkBytes uploadMissing store client' reader.bytes mode mtimeMs = .ok mem →
      file.manifest = mem.manifest ∧ file.content.cid = mem.content.cid) ∧
    (Turn.failed ∉ reader.turns → client.Works blobCid →
      reader.bytes.length ≤ store.maxFileSize.toNat →
      (∀ m ∈ metadata, m.len ≤ store.maxFileSize.toNat) →
      ∃ file,
        putFile blobCid encode fileHash store client path metadata (some reader) = .ok file) := by
  have hloop : ∀ s, streamLoop blobCid store client path reader .start = .ok s →
      s.manifest = (chunkBytes reader.bytes).1.manifest ∧
        s.fileHasher.flatten = reader.bytes := by
    intro s hs
    obtain ⟨htotal, hhasher, hcids⟩ := streamLoop_eq_ok hs
    refine ⟨?_, ?_⟩
    · rw [hchunk, Streamed.manifest, htotal, hcids]
      simp [Streamed.start]
    · rw [hhasher]
      simp [Streamed.start, flatten_pieces]
  refine ⟨hloop, ?_, ?_⟩
  · intro file mem hfile hmem
    obtain ⟨s, hs, hmanifest, hcid⟩ := putFile_eq_ok hfile
    obtain ⟨hmanifest', i, hcid'⟩ := putBytes_eq_ok hmem
    have hsame : s.manifest = (chunkBytes reader.bytes).1.manifest := (hloop s hs).1
    refine ⟨by rw [hmanifest, hsame, hmanifest'], ?_⟩
    rw [hput _ _ _ hcid, hput' _ _ _ hcid', hsame]
  · intro hread hclient hmax hlen
    exact exists_putFile path hread hclient hmax hlen

theorem putFile_agrees_short :
    let blobCid : Bytes → String := fun b => String.ofList (b.map fun c => Char.ofNat c.toNat)
    let encode : Manifest → Bytes := fun m => m.chunks.flatMap fun cid => cid.toUTF8.toList
    let chunkBytes : Bytes → ChunkedFile × List (String × Bytes) := fun b =>
      (⟨⟨MANIFEST_KIND_V1, .ofNat CHUNK_SIZE, .ofNat b.length, (pieces CHUNK_SIZE b).map blobCid⟩,
        blobCid b⟩, (pieces CHUNK_SIZE b).map fun p => (blobCid p, p))
    let client : Client := ⟨fun _ _ => .error "blob not found", fun _ b => .ok (blobCid b)⟩
    let store : Store := ⟨2⟩
    let path := OsPath.ofString "/f"
    ∃ file mem,
      putFile blobCid encode blobCid store client path none
        (some ⟨[7, 8], [.short 0, .interrupted]⟩) = .ok file ∧
      putBytes encode chunkBytes (fun _ missing => .ok missing.length) store client [7, 8] 0o644 1 =
        .ok mem ∧
      file.manifest = mem.manifest ∧ file.content.cid = mem.content.cid := by
  intro blobCid encode chunkBytes client store path
  have hclient : client.Works blobCid := ⟨fun i cid msg h => by cases h; decide, fun i b => rfl⟩
  have hput : ∀ i b cid, client.putBlob i b = .ok cid → cid = blobCid b :=
    fun i b cid h => (Except.ok.inj h).symm
  obtain ⟨-, hagree, hfile⟩ := @putFile_agrees blobCid encode blobCid chunkBytes
    (fun _ missing => .ok missing.length) store client client (fun b => rfl) hput hput
    ⟨[7, 8], [.short 0, .interrupted]⟩ path none 0o644 1
  obtain ⟨file, hfile⟩ := hfile (by decide) hclient (by decide) nofun
  obtain ⟨mem, hmem⟩ := @exists_putBytes blobCid encode chunkBytes
    (fun _ missing => .ok missing.length) store client [7, 8] 0o644 1 hclient
    (fun _ missing => ⟨_, rfl⟩) (by decide)
  exact ⟨file, mem, hfile, hmem, hagree file mem hfile hmem⟩

end Store

end CeDrive
