import CeDrive.BufWriter
import CeDrive.Download

/-!
# The size of a download

`Store::get_file_to_path` refuses a manifest that declares more than the limit of the store,
then writes every chunk the manifest lists through a `BufWriter` to the partial file, and
compares the sizes at the end. A writer that is dropped sends its buffer to the file, also to one
that was removed. `downloadStates` are the bytes in the file after each write to it. They stay
within the limit, whatever the disk does, if and only if the chunks do that the store serves in
order (`download_bounded_iff`), as they do if the manifest declares what they hold
(`served_length_le`).
-/

namespace CeDrive

namespace Store

/-- The buffer of a `BufWriter`. -/
def DEFAULT_BUF_SIZE : ℕ := 8 * 1024

/-- Where the writes to the partial file fail : of each chunk, of the last flush, and of a writer
that is dropped. -/
structure Disk where
  chunk : ℕ → BufWriter.Faults
  flush : Option ℕ
  drop : Option ℕ

/-- No write fails. -/
def Disk.sound : Disk :=
  ⟨fun _ => ⟨none, none⟩, none, none⟩

variable (blobCid : Bytes → String) (decode : Bytes → Option Manifest)

/-- The file after the writer was dropped. -/
def dropOut (disk : Disk) (out : BufWriter UInt8) : List Bytes :=
  [(out.flushBuf disk.drop).2.file]

/-- The end of a download of which all chunks were written. What the last flush leaves is sent when
the writer is dropped. -/
def closeOut (disk : Disk) (out : BufWriter UInt8) : List Bytes :=
  match out.flushBuf disk.flush with
  | (true, out) => [out.file]
  | (false, out) => out.file :: dropOut disk out

/-- The bytes in the partial file after each write, in the loop over the chunks and after it. -/
def fetchStates (w : World) (disk : Disk) (totalSize : ℕ) :
    ℕ → List String → ℕ → BufWriter UInt8 → List Bytes
  | _, [], written, out =>
    if written ≠ totalSize then dropOut disk out else closeOut disk out
  | i, cid :: cids, written, out =>
    match w.getBlob (i + 1) cid with
    | .error _ => dropOut disk out
    | .ok chunk =>
      if blobCid chunk ≠ cid then dropOut disk out
      else match out.writeAll DEFAULT_BUF_SIZE (disk.chunk i) chunk with
        | (files, false, out) => files ++ dropOut disk out
        | (files, true, out) =>
          files ++ fetchStates w disk totalSize (i + 1) cids (written + chunk.length) out

/-- The bytes in the partial file, from when it is created. -/
def downloadStates (store : Store) (w : World) (disk : Disk) (objectCid : String) : List Bytes :=
  match w.getBlob 0 objectCid with
  | .error _ => []
  | .ok manifestBytes =>
    match decode manifestBytes with
    | none => []
    | some manifest =>
      if manifest.kind ≠ MANIFEST_KIND_V1 then []
      else if manifest.totalSize > store.maxFileSize then []
      else if !w.works .create then []
      else
        [] :: fetchStates blobCid w disk manifest.totalSize.toNat 0 manifest.chunks 0 ⟨[], []⟩

/-- What the store serves of the listed chunks, in order, up to the first that it does not answer
with bytes of its cid. -/
def served (w : World) : ℕ → List String → Bytes
  | _, [] => []
  | i, cid :: cids =>
    match w.getBlob (i + 1) cid with
    | .error _ => []
    | .ok chunk => if blobCid chunk = cid then chunk ++ served w (i + 1) cids else []

/-- What is served of the chunks of a manifest that is accepted is within the limit. -/
def Fits (store : Store) (w : World) (objectCid : String) : Prop :=
  ∀ bytes manifest, w.getBlob 0 objectCid = .ok bytes → decode bytes = some manifest →
    manifest.kind = MANIFEST_KIND_V1 → manifest.totalSize ≤ store.maxFileSize →
      w.works .create = true →
        (served blobCid w 0 manifest.chunks).length ≤ store.maxFileSize.toNat

variable {blobCid decode} {store : Store} {w : World} {disk : Disk} {i n total : ℕ}
  {cids : List String} {out : BufWriter UInt8} {objectCid : String}

theorem mem_dropOut : ∀ file ∈ dropOut disk out, file <+: out.all := by
  refine List.forall_mem_singleton.2 ?_
  exact (BufWriter.flushBuf_spec rfl).1 ▸ BufWriter.file_prefix_all _

theorem mem_closeOut : ∀ file ∈ closeOut disk out, file <+: out.all := by
  rcases hflush : out.flushBuf disk.flush with ⟨ok, out'⟩
  have hall := (BufWriter.flushBuf_spec hflush).1
  have hfile : out'.file <+: out.all := hall ▸ out'.file_prefix_all
  unfold closeOut
  rw [hflush]
  cases ok with
  | true => exact List.forall_mem_singleton.2 hfile
  | false => exact List.forall_mem_cons.2 ⟨hfile, hall ▸ mem_dropOut⟩

/-- Whatever the disk does, the file is a beginning of what the store serves. -/
theorem mem_fetchStates (hbuf : out.buf.length ≤ DEFAULT_BUF_SIZE) :
    ∀ file ∈ fetchStates blobCid w disk total i cids n out,
      file <+: out.all ++ served blobCid w i cids := by
  have hdrop : ∀ file ∈ dropOut disk out, file <+: out.all ++ served blobCid w i cids :=
    fun file hfile => (mem_dropOut file hfile).trans (List.prefix_append ..)
  induction cids generalizing i n out with
  | nil =>
    rw [fetchStates]
    split_ifs
    · exact hdrop
    · exact fun file hfile => (mem_closeOut file hfile).trans (List.prefix_append ..)
  | cons cid cids ih =>
    rw [fetchStates]
    rw [served] at hdrop ⊢
    cases hblob : w.getBlob (i + 1) cid with
    | error e =>
      rw [hblob] at hdrop
      exact hdrop
    | ok chunk =>
      rw [hblob] at hdrop
      dsimp only at hdrop ⊢
      by_cases hcid : blobCid chunk = cid
      · rw [if_neg (not_not.2 hcid), if_pos hcid]
        rcases hwrite : out.writeAll DEFAULT_BUF_SIZE (disk.chunk i) chunk with ⟨files, ok, out'⟩
        obtain ⟨hfiles, hall, hbuf', hok, -⟩ := BufWriter.writeAll_spec hbuf hwrite
        have hnow : ∀ file ∈ files,
            file <+: out.all ++ (chunk ++ served blobCid w (i + 1) cids) := fun file hfile =>
          (hfiles file hfile).trans (by rw [← List.append_assoc]; exact List.prefix_append ..)
        have hgone : ∀ file ∈ dropOut disk out',
            file <+: out.all ++ (chunk ++ served blobCid w (i + 1) cids) := fun file hfile =>
          ((mem_dropOut file hfile).trans hall).trans
            (by rw [← List.append_assoc]; exact List.prefix_append ..)
        cases ok with
        | false => exact List.forall_mem_append.2 ⟨hnow, hgone⟩
        | true =>
          refine List.forall_mem_append.2 ⟨hnow, ?_⟩
          rw [← List.append_assoc, ← hok rfl]
          exact ih hbuf' fun file hfile =>
            (mem_dropOut file hfile).trans (List.prefix_append ..)
      · rw [if_neg hcid] at hdrop
        rw [if_pos hcid, if_neg hcid]
        exact hdrop

theorem all_mem_dropOut : out.all ∈ dropOut .sound out := by
  simp [dropOut, Disk.sound]

theorem all_mem_closeOut : out.all ∈ closeOut .sound out := by
  simp [closeOut, Disk.sound]

/-- If no write fails, all that the store serves is in the file at the end. -/
theorem served_mem_fetchStates (hbuf : out.buf.length ≤ DEFAULT_BUF_SIZE) :
    out.all ++ served blobCid w i cids ∈ fetchStates blobCid w .sound total i cids n out := by
  induction cids generalizing i n out with
  | nil =>
    rw [fetchStates, served, List.append_nil]
    split_ifs
    · exact all_mem_dropOut
    · exact all_mem_closeOut
  | cons cid cids ih =>
    rw [fetchStates, served]
    cases hblob : w.getBlob (i + 1) cid with
    | error e => simpa using all_mem_dropOut
    | ok chunk =>
      dsimp only
      by_cases hcid : blobCid chunk = cid
      · rw [if_neg (not_not.2 hcid), if_pos hcid]
        rcases hwrite : out.writeAll DEFAULT_BUF_SIZE (Disk.sound.chunk i) chunk with
          ⟨files, ok, out'⟩
        obtain ⟨-, -, hbuf', hall, hok⟩ := BufWriter.writeAll_spec hbuf hwrite
        obtain rfl := hok rfl
        refine List.mem_append_right _ ?_
        rw [← List.append_assoc, ← hall rfl]
        exact ih hbuf'
      · rw [if_pos hcid, if_neg hcid, List.append_nil]
        exact all_mem_dropOut

/-- The loop of a download that goes through leaves what the store serves. -/
theorem served_of_fetchChunks {tmp : OsPath} {files after : Files} {old : Bytes} {n' : ℕ}
    (hold : files tmp = some old)
    (h : fetchChunks blobCid w tmp i cids n files = (.ok n', after)) :
    after tmp = some (old ++ served blobCid w i cids) := by
  induction cids generalizing i n files old with
  | nil =>
    obtain ⟨-, rfl⟩ := Prod.mk.inj h
    rw [hold, served, List.append_nil]
  | cons cid cids ih =>
    rw [fetchChunks] at h
    rw [served]
    cases hblob : w.getBlob (i + 1) cid with
    | error e => simp [hblob] at h
    | ok chunk =>
      simp only [hblob] at h
      split_ifs at h with hcid hwrite
      · cases h
      · have happend : files.append tmp chunk tmp = some (old ++ chunk) := by
          simp [Files.append, hold]
        dsimp only
        rw [if_pos (not_not.1 hcid), ih happend h, List.append_assoc]
      · cases h

/-- What the store serves of a manifest that declares what its chunks hold. -/
theorem served_length_le (hcid : Function.Injective blobCid) (chunks : List Bytes) :
    (served blobCid w i (chunks.map blobCid)).length ≤ chunks.flatten.length := by
  induction chunks generalizing i with
  | nil => exact le_rfl
  | cons chunk chunks ih =>
    rw [List.map_cons, served, List.flatten_cons, List.length_append]
    cases hblob : w.getBlob (i + 1) (blobCid chunk) with
    | error e => exact Nat.zero_le _
    | ok got =>
      dsimp only
      split_ifs with hgot
      · obtain rfl := hcid hgot
        rw [List.length_append]
        exact Nat.add_le_add_left ih _
      · exact Nat.zero_le _

/-- The states of a download from a store, by the manifest if that is accepted. -/
theorem downloadStates_eq {bytes : Bytes} {manifest : Manifest}
    (hblob : w.getBlob 0 objectCid = .ok bytes) (hdec : decode bytes = some manifest)
    (hkind : manifest.kind = MANIFEST_KIND_V1) (hsize : manifest.totalSize ≤ store.maxFileSize)
    (hworks : w.works .create = true) :
    store.downloadStates blobCid decode w disk objectCid =
      [] :: fetchStates blobCid w disk manifest.totalSize.toNat 0 manifest.chunks 0 ⟨[], []⟩ := by
  have hle : ¬manifest.totalSize > store.maxFileSize := UInt64.not_lt.2 hsize
  simp [downloadStates, hblob, hdec, hkind, hle, hworks]

theorem Fits.bounded (h : store.Fits blobCid decode w objectCid) (disk : Disk) :
    ∀ file ∈ store.downloadStates blobCid decode w disk objectCid,
      file.length ≤ store.maxFileSize.toNat := by
  intro file hfile
  unfold downloadStates at hfile
  cases hblob : w.getBlob 0 objectCid with
  | error e => simp [hblob] at hfile
  | ok bytes =>
    cases hdec : decode bytes with
    | none => simp [hblob, hdec] at hfile
    | some manifest =>
      simp only [hblob, hdec] at hfile
      split_ifs at hfile with hkind hsize hworks
      · cases hfile
      · cases hfile
      · cases hfile
      · have hfits := h bytes manifest hblob hdec (not_not.1 hkind) (UInt64.not_lt.1 hsize)
          (by simpa using hworks)
        rcases List.mem_cons.1 hfile with rfl | hfile
        · exact Nat.zero_le _
        · exact (mem_fetchStates (Nat.zero_le _) file hfile).length_le.trans hfits

theorem fits_of_bounded (h : ∀ file ∈ store.downloadStates blobCid decode w .sound objectCid,
    file.length ≤ store.maxFileSize.toNat) : store.Fits blobCid decode w objectCid := by
  intro bytes manifest hblob hdec hkind hsize hworks
  refine h _ ?_
  rw [downloadStates_eq hblob hdec hkind hsize hworks]
  exact List.mem_cons_of_mem _ (served_mem_fetchStates (Nat.zero_le _))

/-- The size of a download. At every point of every download the partial file is at most as long
as the limit of the store, if and only if so is everything the store serves in order of the
chunks that an accepted manifest lists. That is so whichever writes fail, and if none does. -/
theorem download_bounded_iff (blobCid : Bytes → String) (decode : Bytes → Option Manifest)
    (store : Store) (w : World) (objectCid : String) :
    ((∀ disk, ∀ file ∈ store.downloadStates blobCid decode w disk objectCid,
        file.length ≤ store.maxFileSize.toNat) ↔ store.Fits blobCid decode w objectCid) ∧
      ((∀ file ∈ store.downloadStates blobCid decode w .sound objectCid,
        file.length ≤ store.maxFileSize.toNat) ↔ store.Fits blobCid decode w objectCid) :=
  ⟨⟨fun h => fits_of_bounded (h .sound), Fits.bounded⟩,
    ⟨fits_of_bounded, fun h => h.bounded .sound⟩⟩

/-- A manifest that declares one byte and lists a chunk. -/
def understated (cid : String) : Manifest :=
  ⟨MANIFEST_KIND_V1, 1, 1, [cid]⟩

/-- A chunk that is as long as the buffer goes to the file at once. -/
theorem mem_of_understated {bytes chunk : Bytes} (objectCid : String)
    (hchunk : DEFAULT_BUF_SIZE ≤ chunk.length)
    (hdec : decode bytes = some (understated (blobCid chunk))) :
    chunk ∈ downloadStates blobCid decode ⟨1⟩ (answering bytes chunk) .sound objectCid := by
  have hblob : (answering bytes chunk).getBlob 0 objectCid = .ok bytes := rfl
  have hserved : (answering bytes chunk).getBlob (0 + 1) (blobCid chunk) = .ok chunk := rfl
  rw [downloadStates_eq hblob hdec rfl (UInt64.le_refl _) rfl, understated, fetchStates, hserved]
  simp [Disk.sound, BufWriter.writeAll_of_le, hchunk]

/-- The store lists a chunk of 8 KiB in a manifest that declares one byte, with a limit of one
byte. -/
theorem download_exceeds :
    ∃ file ∈ downloadStates spell decodeNumbered ⟨1⟩
      (answering (encodeNumbered (understated (spell (List.replicate DEFAULT_BUF_SIZE 0))))
        (List.replicate DEFAULT_BUF_SIZE 0)) .sound "x",
      ¬file.length ≤ (Store.mk 1).maxFileSize.toNat := by
  refine ⟨List.replicate DEFAULT_BUF_SIZE 0, mem_of_understated "x" ?_
    (decodeNumbered_encodeNumbered _), ?_⟩
  · rw [List.length_replicate]
  · rw [List.length_replicate]
    decide

end Store

end CeDrive
