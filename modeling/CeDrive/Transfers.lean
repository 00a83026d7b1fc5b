import CeDrive.Streaming
import Mathlib.Data.Set.Basic
import Mathlib.Order.Monotone.Basic

/-!
# Uploads and downloads on one store

The blobs of a node, which drops none, over time. Other devices store blobs meanwhile. A client
makes its calls one after the other, and any of them may fail. An upload that succeeds left the
manifest and every chunk of the file there, those it did not send because they were there or
because the file has them twice included (`stored_of_putFile`, `stored_of_putBytes`). So a later
download that succeeds, on any device, writes the bytes of the file, and it succeeds if no call
fails and the limit allows (`download_uploaded`). One that fails leaves the destination as it was.
-/

open Pieces

namespace CeDrive

/-- The blobs of a node over time. -/
structure Blobs where
  held : ℕ → Set Bytes
  mono : ∀ ⦃t t' : ℕ⦄, t ≤ t' → held t ⊆ held t'

/-- The calls of a client, the `i`-th at the time `clock i`. A blob that is answered is there, and
one that is taken is there at the next call. -/
structure Client.Session (blobCid : Bytes → String) (blobs : Blobs) (clock : ℕ → ℕ)
    (client : Client) : Prop where
  later : Monotone clock
  getBlob : ∀ ⦃i cid bytes⦄, client.getBlob i cid = .ok bytes →
    bytes ∈ blobs.held (clock i) ∧ blobCid bytes = cid
  putBlob : ∀ ⦃i bytes cid⦄, client.putBlob i bytes = .ok cid →
    bytes ∈ blobs.held (clock (i + 1)) ∧ cid = blobCid bytes

/-- The calls of a download. -/
structure World.Session (blobCid : Bytes → String) (blobs : Blobs) (clock : ℕ → ℕ) (w : World) :
    Prop where
  later : Monotone clock
  getBlob : ∀ ⦃i cid bytes⦄, w.getBlob i cid = .ok bytes →
    bytes ∈ blobs.held (clock i) ∧ blobCid bytes = cid

/-- No call of a download fails for a blob that is there. -/
structure World.Faultless (blobCid : Bytes → String) (blobs : Blobs) (clock : ℕ → ℕ) (w : World) :
    Prop where
  getBlob : ∀ ⦃i bytes⦄, bytes ∈ blobs.held (clock i) → ∃ b, w.getBlob i (blobCid bytes) = .ok b
  works : ∀ c, w.works c = true

/-- The manifest of a file. -/
def manifestOf (blobCid : Bytes → String) (bytes : Bytes) : Manifest :=
  ⟨MANIFEST_KIND_V1, .ofNat CHUNK_SIZE, .ofNat bytes.length, (pieces CHUNK_SIZE bytes).map blobCid⟩

/-- The file is in the store : its manifest, and all its chunks. -/
structure Blobs.Stored (blobs : Blobs) (blobCid : Bytes → String) (encode : Manifest → Bytes)
    (time : ℕ) (objectCid : String) (bytes : Bytes) : Prop where
  size : bytes.length < 2 ^ 64
  cid : blobCid (encode (manifestOf blobCid bytes)) = objectCid
  manifest : encode (manifestOf blobCid bytes) ∈ blobs.held time
  chunks : ∀ p ∈ pieces CHUNK_SIZE bytes, p ∈ blobs.held time

namespace Client

variable {blobCid : Bytes → String} {blobs : Blobs} {clock : ℕ → ℕ} {client : Client} {i : ℕ}
  {cids missing : List String} {cid : String}

/-- A chunk that is not missing is there. -/
theorem Session.exists_of_not_missing (h : client.Session blobCid blobs clock)
    (hmissing : client.missingChunks i cids = .ok missing) (hcid : cid ∈ cids)
    (hnot : cid ∉ missing) :
    ∃ bytes ∈ blobs.held (clock (i + cids.length)), blobCid bytes = cid := by
  induction cids generalizing i missing with
  | nil => cases hcid
  | cons c cids ih =>
    rw [missingChunks] at hmissing
    have hlen : i + (c :: cids).length = i + 1 + cids.length := by
      rw [List.length_cons]
      omega
    rw [hlen]
    cases hget : client.getBlob i c with
    | ok bytes =>
      simp only [hget] at hmissing
      rcases List.mem_cons.1 hcid with rfl | hcid
      · obtain ⟨hheld, hbytes⟩ := h.getBlob hget
        exact ⟨bytes, blobs.mono (h.later (by omega)) hheld, hbytes⟩
      · exact ih hmissing hcid hnot
    | error msg =>
      simp only [hget] at hmissing
      split_ifs at hmissing
      split at hmissing
      · rename_i rest hrest
        obtain rfl := Except.ok.inj hmissing
        rw [List.mem_cons, not_or] at hnot
        exact ih hrest ((List.mem_cons.1 hcid).resolve_left hnot.1) hnot.2
      · cases hmissing

end Client

namespace Store

variable {blobCid : Bytes → String} {encode : Manifest → Bytes} {decode : Bytes → Option Manifest}
  {fileHash : Bytes → String} {chunkBytes : Bytes → ChunkedFile × List (String × Bytes)}
  {uploadMissing : List (String × Bytes) → List String → Except String ℕ} {store : Store}
  {blobs : Blobs} {clock clock' : ℕ → ℕ} {client : Client} {path : OsPath} {reader : Reader}
  {s s' : Streamed} {slice bytes : Bytes} {stored : StoredFile}

/-! ## Uploads -/

/-- What the loop of `put_file` has done : what it has seen is in the store. -/
structure Sent (blobCid : Bytes → String) (blobs : Blobs) (clock : ℕ → ℕ) (s : Streamed) :
    Prop where
  seen : ∀ cid ∈ s.seen, ∃ bytes ∈ blobs.held (clock s.calls), blobCid bytes = cid
  chunks : ∀ cid ∈ s.chunkCids, cid ∈ s.seen

/-- A chunk that is there is marked as seen. -/
theorem Sent.cons (hlater : Monotone clock) (h : Sent blobCid blobs clock s) {n : ℕ} {cid : String}
    (hle : s.calls ≤ n) (hself : ∃ bytes ∈ blobs.held (clock n), blobCid bytes = cid) (total : ℕ)
    (hasher : List Bytes) (uploaded : ℕ) : Sent blobCid blobs clock
      ⟨n, s.chunkCids ++ [cid], total, hasher, uploaded, cid :: s.seen⟩ where
  seen := by
    refine List.forall_mem_cons.2 ⟨hself, fun c hc => ?_⟩
    obtain ⟨bytes, hbytes, hcid⟩ := h.seen c hc
    exact ⟨bytes, blobs.mono (hlater hle) hbytes, hcid⟩
  chunks := by
    intro c hc
    rcases List.mem_append.1 hc with hc | hc
    · exact List.mem_cons_of_mem _ (h.chunks c hc)
    · exact List.mem_singleton.1 hc ▸ List.mem_cons_self

theorem Sent.streamSlice (hclient : client.Session blobCid blobs clock)
    (h : Sent blobCid blobs clock s) (hs : streamSlice blobCid store client path slice s = .ok s') :
    Sent blobCid blobs clock s' ∧ s'.calls ≤ s.calls + 2 ∧
      s'.total ≤ store.maxFileSize.toNat := by
  unfold Store.streamSlice at hs
  dsimp only at hs
  split_ifs at hs with hmax hseen
  · obtain rfl := Except.ok.inj hs
    refine ⟨⟨h.seen, fun c hc => ?_⟩, Nat.le_add_right _ _, Nat.not_lt.1 hmax⟩
    rcases List.mem_append.1 hc with hc | hc
    · exact h.chunks c hc
    · exact List.mem_singleton.1 hc ▸ hseen
  · split at hs
    · cases hs
    · rename_i hmissing
      obtain rfl := Except.ok.inj hs
      have hself := hclient.exists_of_not_missing hmissing (List.mem_singleton.2 rfl)
        List.not_mem_nil
      exact ⟨h.cons hclient.later (Nat.le_succ _) hself .., Nat.le_succ _, Nat.not_lt.1 hmax⟩
    · split at hs
      · cases hs
      · rename_i stored hput
        split_ifs at hs with hstored
        obtain rfl := Except.ok.inj hs
        have hself := (hclient.putBlob hput).1
        exact ⟨h.cons hclient.later (Nat.le_add_right _ _) ⟨slice, hself, rfl⟩ .., le_rfl,
          Nat.not_lt.1 hmax⟩

theorem Sent.streamLoop (hclient : client.Session blobCid blobs clock)
    (h : Sent blobCid blobs clock s) (hmax : s.total ≤ store.maxFileSize.toNat)
    (hs : streamLoop blobCid store client path reader s = .ok s') :
    Sent blobCid blobs clock s' ∧
      s'.calls ≤ s.calls + 2 * (pieces CHUNK_SIZE reader.bytes).length ∧
      s'.total ≤ store.maxFileSize.toNat := by
  fun_induction Store.streamLoop blobCid store client path reader s with
  | case1 reader s e reader' hfill => cases hs
  | case2 reader s reader' hfill =>
    obtain rfl := Except.ok.inj hs
    exact ⟨h, Nat.le_add_right _ _, hmax⟩
  | case3 reader s b slice reader' hfill e hslice => cases hs
  | case4 reader s b slice reader' hfill s₁ hslice ih =>
    obtain ⟨hsent, hcalls, htotal⟩ := h.streamSlice hclient hslice
    obtain ⟨hsent', hcalls', htotal'⟩ := ih hsent htotal hs
    rw [(pieces_of_fillChunk hfill).1, List.length_cons]
    exact ⟨hsent', by omega, htotal'⟩

/-- An upload of a file leaves it in the store. -/
theorem stored_of_putFile (hcid : Function.Injective blobCid)
    (hclient : client.Session blobCid blobs clock) {metadata : Option Metadata}
    (h : putFile blobCid encode fileHash store client path metadata (some reader) = .ok stored) :
    ∃ n ≤ 2 * (pieces CHUNK_SIZE reader.bytes).length + 1,
      blobs.Stored blobCid encode (clock n) stored.content.cid reader.bytes := by
  obtain ⟨s, hs, -, hput⟩ := putFile_eq_ok h
  obtain ⟨htotal, -, hcids⟩ := streamLoop_eq_ok hs
  have hstart : Sent blobCid blobs clock .start :=
    ⟨fun _ hc => absurd hc List.not_mem_nil, fun _ hc => absurd hc List.not_mem_nil⟩
  obtain ⟨hsent, hcalls, hmax⟩ := hstart.streamLoop hclient (Nat.zero_le _) hs
  have hmanifest : s.manifest = manifestOf blobCid reader.bytes := by
    rw [Streamed.manifest, manifestOf, htotal, hcids]
    simp [Streamed.start]
  obtain ⟨hheld, hobject⟩ := hclient.putBlob hput
  rw [hmanifest] at hheld hobject
  refine ⟨s.calls + 1, ?_, ?_, hobject.symm, hheld, fun p hp => ?_⟩
  · simpa [Streamed.start] using hcalls
  · have hlen : s.total = reader.bytes.length := by simpa [Streamed.start] using htotal
    exact hlen ▸ hmax.trans_lt store.maxFileSize.toNat_lt
  · have hmem : blobCid p ∈ s.chunkCids := by
      rw [hcids]
      exact List.mem_append_right _ (List.mem_map_of_mem hp)
    obtain ⟨bytes, hbytes, heq⟩ := hsent.seen _ (hsent.chunks _ hmem)
    exact hcid heq ▸ blobs.mono (hclient.later (Nat.le_succ _)) hbytes

theorem length_eraseDups_le (cids : List String) : cids.eraseDups.length ≤ cids.length := by
  induction h : cids.length using Nat.strong_induction_on generalizing cids with
  | _ k ih =>
    cases cids with
    | nil => exact Nat.zero_le _
    | cons cid cids =>
      have hle := List.length_filter_le (fun c => !c == cid) cids
      obtain rfl := h
      have hrest := ih _ (Nat.lt_succ_of_le hle) _ rfl
      rw [List.eraseDups_cons, List.length_cons, List.length_cons]
      omega

/-- An upload of bytes leaves them in the store. -/
theorem stored_of_putBytes (hcid : Function.Injective blobCid)
    (hclient : client.Session blobCid blobs clock) {mode mtimeMs : ℕ}
    (hchunk : (chunkBytes bytes).1.manifest = manifestOf blobCid bytes)
    (hchunks : ∀ p ∈ pieces CHUNK_SIZE bytes, (blobCid p, p) ∈ (chunkBytes bytes).2)
    (hupload : ∀ missing n, uploadMissing (chunkBytes bytes).2 missing = .ok n →
      ∀ x ∈ (chunkBytes bytes).2, x.1 ∈ missing →
        x.2 ∈ blobs.held (clock (manifestOf blobCid bytes).chunks.eraseDups.length))
    (h : putBytes encode chunkBytes uploadMissing store client bytes mode mtimeMs = .ok stored) :
    ∃ n ≤ 2 * (pieces CHUNK_SIZE bytes).length + 1,
      blobs.Stored blobCid encode (clock n) stored.content.cid bytes := by
  unfold putBytes at h
  dsimp only at h
  rw [hchunk] at h
  split_ifs at h with hmax
  split at h
  · cases h
  · rename_i missing hmissing
    split at h
    · cases h
    · rename_i uploaded huploaded
      split at h
      · cases h
      · rename_i objectCid hput
        obtain rfl := Except.ok.inj h
        obtain ⟨hheld, hobject⟩ := hclient.putBlob hput
        refine ⟨_, ?_, ?_, hobject.symm, hheld, fun p hp => ?_⟩
        · have hlen := length_eraseDups_le (manifestOf blobCid bytes).chunks
          have hmap : (manifestOf blobCid bytes).chunks.length = (pieces CHUNK_SIZE bytes).length :=
            List.length_map _
          omega
        · exact (Nat.not_lt.1 hmax).trans_lt store.maxFileSize.toNat_lt
        · by_cases hneed : blobCid p ∈ missing
          · exact blobs.mono (hclient.later (Nat.le_succ _))
              (hupload missing uploaded huploaded _ (hchunks p hp) hneed)
          · have hself : blobCid p ∈ (manifestOf blobCid bytes).chunks.eraseDups :=
              List.mem_eraseDups.2 (List.mem_map_of_mem hp)
            obtain ⟨b, hb, heq⟩ := hclient.exists_of_not_missing hmissing hself hneed
            rw [Nat.zero_add] at hb
            exact hcid heq ▸ blobs.mono (hclient.later (Nat.le_succ _)) hb

/-! ## Downloads -/

variable {w : World} {tmp dest : OsPath} {i n : ℕ} {files after : Files} {cids : List String}
  {objectCid : String} {r : Except String ℕ}

theorem exists_fetchChunks {chunks : List Bytes} {old : Bytes} (hold : files tmp = some old)
    (hget : ∀ p ∈ chunks, ∀ j, w.getBlob j (blobCid p) = .ok p)
    (hworks : ∀ c, w.works c = true) : ∃ after,
      fetchChunks blobCid w tmp i (chunks.map blobCid) n files =
        (.ok (n + chunks.flatten.length), after) ∧ after tmp = some (old ++ chunks.flatten) := by
  induction chunks generalizing i n files old with
  | nil => exact ⟨files, rfl, by simpa using hold⟩
  | cons p chunks ih =>
    obtain ⟨hp, hrest⟩ := List.forall_mem_cons.1 hget
    have happend : files.append tmp p tmp = some (old ++ p) := by
      simp [Files.append, hold]
    obtain ⟨after, hafter, htmp⟩ := ih (i := i + 1) (n := n + p.length) happend hrest
    refine ⟨after, ?_, ?_⟩
    · simp [fetchChunks, hp, hworks, hafter, Nat.add_assoc]
    · rw [htmp, List.flatten_cons, List.append_assoc]

/-- What is returned is the number of bytes written. -/
theorem length_of_getFileToPath
    (h : store.getFileToPath blobCid decode w files objectCid dest = (.ok n, after))
    (hafter : after dest = some bytes) : n = bytes.length := by
  unfold getFileToPath at h
  split at h
  · cases h
  · split at h
    · cases h
    · dsimp only at h
      split_ifs at h
      · cases h
      · cases h
      · cases h
      · split at h
        · cases h
        · rename_i written files' hloop
          split_ifs at h
          · cases h
          · obtain ⟨chunks, -, hwritten, htmp⟩ :=
              fetchChunks_eq_ok (Function.update_self ..) hloop
            rw [publish_eq_ok h, htmp, List.nil_append] at hafter
            obtain rfl := Option.some_injective _ hafter
            have hn : n = written := by
              unfold publish at h
              split_ifs at h
              · cases h
              · cases h
              · cases h
              · cases h
              · exact (Except.ok.inj (Prod.mk.inj h).1).symm
            rw [hn, hwritten, Nat.zero_add]

/-- Only the partial file changes. -/
theorem fetchChunks_frame (h : fetchChunks blobCid w tmp i cids n files = (r, after))
    (hpath : path ≠ tmp) : after path = files path := by
  induction cids generalizing i n files with
  | nil =>
    obtain ⟨-, rfl⟩ := Prod.mk.inj h
    rfl
  | cons cid cids ih =>
    rw [fetchChunks] at h
    split at h
    · obtain ⟨-, rfl⟩ := Prod.mk.inj h
      rfl
    · rename_i chunk _
      split_ifs at h
      · obtain ⟨-, rfl⟩ := Prod.mk.inj h
        exact Function.update_of_ne hpath _ _
      · exact (ih h).trans (Function.update_of_ne hpath _ _)
      · obtain ⟨-, rfl⟩ := Prod.mk.inj h
        rfl

/-- A download changes no file but the partial one, and the destination if it succeeds. -/
theorem getFileToPath_frame
    (h : store.getFileToPath blobCid decode w files objectCid dest = (r, after))
    (hpath : path ≠ dest.withExtension "ce-drive-partial")
    (hdest : path = dest → ∃ e, r = .error e) : after path = files path := by
  unfold getFileToPath at h
  split at h
  · obtain ⟨-, rfl⟩ := Prod.mk.inj h
    rfl
  · split at h
    · obtain ⟨-, rfl⟩ := Prod.mk.inj h
      rfl
    · rename_i manifest _
      dsimp only at h
      split_ifs at h
      · obtain ⟨-, rfl⟩ := Prod.mk.inj h
        rfl
      · obtain ⟨-, rfl⟩ := Prod.mk.inj h
        rfl
      · obtain ⟨-, rfl⟩ := Prod.mk.inj h
        rfl
      · have hcreate : files.create (dest.withExtension "ce-drive-partial") path = files path :=
          Function.update_of_ne hpath _ _
        split at h
        · rename_i hloop
          obtain ⟨-, rfl⟩ := Prod.mk.inj h
          exact (fetchChunks_frame hloop hpath).trans hcreate
        · rename_i hloop
          have hframe := (fetchChunks_frame hloop hpath).trans hcreate
          split_ifs at h
          · obtain ⟨-, rfl⟩ := Prod.mk.inj h
            exact (Function.update_of_ne hpath _ _).trans hframe
          · unfold publish at h
            split_ifs at h
            · obtain ⟨-, rfl⟩ := Prod.mk.inj h
              exact hframe
            · obtain ⟨-, rfl⟩ := Prod.mk.inj h
              exact hframe
            · obtain ⟨-, rfl⟩ := Prod.mk.inj h
              exact hframe
            · obtain ⟨-, rfl⟩ := Prod.mk.inj h
              exact hframe
            · obtain ⟨rfl, rfl⟩ := Prod.mk.inj h
              have hne : path ≠ dest := fun heq => by
                obtain ⟨e, he⟩ := hdest heq
                cases he
              rw [Files.rename, Function.update_of_ne hne, Files.remove,
                Function.update_of_ne hpath]
              exact hframe

/-- A download of a file that is in the store. -/
theorem download_of_stored (store : Store) (hcid : Function.Injective blobCid)
    (hdecode : ∀ manifest, decode (encode manifest) = some manifest) {time : ℕ}
    (h : blobs.Stored blobCid encode time objectCid bytes) (hw : w.Session blobCid blobs clock)
    (htime : time ≤ clock 0) :
    (∀ n after, store.getFileToPath blobCid decode w files objectCid dest = (.ok n, after) →
      n = bytes.length ∧ after dest = some bytes) ∧
    (w.Faultless blobCid blobs clock → bytes.length ≤ store.maxFileSize.toNat → ∃ after,
      store.getFileToPath blobCid decode w files objectCid dest = (.ok bytes.length, after)) := by
  have hsize : (manifestOf blobCid bytes).totalSize.toNat = bytes.length := by
    exact (UInt64.toNat_ofNat ..).trans (Nat.mod_eq_of_lt h.size)
  refine ⟨fun n after hrun => ?_, fun hfaultless hmax => ?_⟩
  · obtain ⟨mbytes, manifest, chunks, hblob, hdec, -, hmap, -, hafter⟩ := getFileToPath_eq_ok hrun
    obtain rfl : mbytes = encode (manifestOf blobCid bytes) :=
      hcid ((hw.getBlob hblob).2.trans h.cid.symm)
    obtain rfl := Option.some_injective _ ((hdecode _).symm.trans hdec)
    obtain rfl : chunks = pieces CHUNK_SIZE bytes := List.map_injective_iff.2 hcid hmap
    rw [flatten_pieces] at hafter
    exact ⟨length_of_getFileToPath hrun hafter, hafter⟩
  · have hget : ∀ p ∈ blobs.held (clock 0), ∀ j, w.getBlob j (blobCid p) = .ok p := by
      intro p hp j
      obtain ⟨b, hb⟩ := hfaultless.getBlob (blobs.mono (hw.later (Nat.zero_le j)) hp)
      rw [hb, hcid (hw.getBlob hb).2]
    have hmanifest := hget _ (blobs.mono htime h.manifest) 0
    rw [h.cid] at hmanifest
    have hkind : (manifestOf blobCid bytes).kind = MANIFEST_KIND_V1 := rfl
    have hlimit : ¬(manifestOf blobCid bytes).totalSize > store.maxFileSize := by
      rw [gt_iff_lt, UInt64.lt_iff_toNat_lt, hsize]
      exact Nat.not_lt.2 hmax
    have hempty : files.create (dest.withExtension "ce-drive-partial")
        (dest.withExtension "ce-drive-partial") = some [] := Function.update_self ..
    obtain ⟨after, hloop, -⟩ := exists_fetchChunks (i := 0) (n := 0) hempty
      (fun p hp => hget p (blobs.mono htime (h.chunks p hp))) hfaultless.works
    rw [flatten_pieces, Nat.zero_add] at hloop
    have hchunks : (manifestOf blobCid bytes).chunks = (pieces CHUNK_SIZE bytes).map blobCid := rfl
    refine ⟨after.rename (dest.withExtension "ce-drive-partial") dest, ?_⟩
    simp [getFileToPath, hmanifest, hdecode, hkind, hlimit, hfaultless.works, hchunks, hloop, hsize,
      publish]

/-- A file that is uploaded, by `put_file` or from memory, comes back at each later download that
succeeds, on any device, and the download succeeds if no call fails. One that fails leaves the
destination as it was. -/
theorem download_uploaded (hcid : Function.Injective blobCid)
    (hdecode : ∀ manifest, decode (encode manifest) = some manifest)
    (hclient : client.Session blobCid blobs clock)
    (hchunk : (chunkBytes bytes).1.manifest = manifestOf blobCid bytes)
    (hchunks : ∀ p ∈ pieces CHUNK_SIZE bytes, (blobCid p, p) ∈ (chunkBytes bytes).2)
    (hupload : ∀ missing n, uploadMissing (chunkBytes bytes).2 missing = .ok n →
      ∀ x ∈ (chunkBytes bytes).2, x.1 ∈ missing →
        x.2 ∈ blobs.held (clock (manifestOf blobCid bytes).chunks.eraseDups.length))
    (h : (∃ path metadata turns, putFile blobCid encode fileHash store client path metadata
        (some ⟨bytes, turns⟩) = .ok stored) ∨
      ∃ mode mtimeMs,
        putBytes encode chunkBytes uploadMissing store client bytes mode mtimeMs = .ok stored) :
    ∃ n ≤ 2 * (pieces CHUNK_SIZE bytes).length + 1,
      ∀ (store' : Store) (w : World) (clock' files dest), w.Session blobCid blobs clock' →
      clock n ≤ clock' 0 →
      (∀ m after, store'.getFileToPath blobCid decode w files stored.content.cid dest =
        (.ok m, after) → m = bytes.length ∧ after dest = some bytes) ∧
      (∀ e after, store'.getFileToPath blobCid decode w files stored.content.cid dest =
        (.error e, after) → dest ≠ dest.withExtension "ce-drive-partial" →
          after dest = files dest) ∧
      (w.Faultless blobCid blobs clock' → bytes.length ≤ store'.maxFileSize.toNat → ∃ after,
        store'.getFileToPath blobCid decode w files stored.content.cid dest =
          (.ok bytes.length, after)) := by
  obtain ⟨n, hn, hstored⟩ : ∃ n ≤ 2 * (pieces CHUNK_SIZE bytes).length + 1,
      blobs.Stored blobCid encode (clock n) stored.content.cid bytes := by
    obtain ⟨path, metadata, turns, hfile⟩ | ⟨mode, mtimeMs, hmem⟩ := h
    · exact stored_of_putFile hcid hclient hfile
    · exact stored_of_putBytes hcid hclient hchunk hchunks hupload hmem
  refine ⟨n, hn, fun store' w clock' files dest hw htime => ?_⟩
  obtain ⟨hok, hfaultless⟩ := download_of_stored store' hcid hdecode hstored hw htime
  exact ⟨hok, fun e after hrun hdest => getFileToPath_frame hrun hdest fun _ => ⟨e, rfl⟩,
    hfaultless⟩

/-- The bytes that a cid spells. -/
def unspell (cid : String) : Bytes :=
  cid.toList.map fun c => UInt8.ofNat c.toNat

/-- Two bytes, read one by one, are sent to an empty store, and fetched later. -/
theorem download_uploaded_short : ∃ (client : Client) (stored : StoredFile) (w : World)
    (after : Files),
    putFile spell encodeNumbered spell ⟨2⟩ client (.ofString "/f") none
      (some ⟨[7, 8], [.short 0, .interrupted]⟩) = .ok stored ∧
    getFileToPath spell decodeNumbered ⟨2⟩ w (fun _ => none) stored.content.cid (.ofString "/g") =
      (.ok 2, after) ∧ after (.ofString "/g") = some [7, 8] := by
  let client : Client := ⟨fun _ _ => .error "blob not found", fun _ b => .ok (spell b)⟩
  let blobs : Blobs := ⟨fun time => {_b | time ≠ 0}, fun _ _ hle b hb h0 =>
    hb (Nat.le_zero.1 (h0 ▸ hle))⟩
  let w : World := ⟨fun _ cid => if spell (unspell cid) = cid then .ok (unspell cid) else
    .error "blob not found", fun _ => true⟩
  have hspell : ∀ b, unspell (spell b) = b := fun b => by
    simp [unspell, spell, Function.comp_def, Digits.toUInt8_ofNat_toNat]
  have hworks : client.Works spell := ⟨fun i cid msg h => by cases h; decide, fun i b => rfl⟩
  obtain ⟨stored, hstored⟩ := @exists_putFile spell encodeNumbered spell ⟨2⟩ client
    ⟨[7, 8], [.short 0, .interrupted]⟩ none (.ofString "/f") (by decide) hworks (by decide)
    fun _ h => by cases h
  have hclient : client.Session spell blobs id := by
    refine ⟨monotone_id, fun i cid b h => ?_, fun i b cid h => ?_⟩
    · cases h
    · exact ⟨Nat.succ_ne_zero i, (Except.ok.inj h).symm⟩
  have hw : w.Session spell blobs (10 + ·) := by
    refine ⟨fun _ _ hle => Nat.add_le_add_left hle 10, fun i cid b h => ⟨?_, ?_⟩⟩
    · exact Nat.ne_of_gt (Nat.lt_add_right i (by decide))
    · simp only [w] at h
      split_ifs at h with hcid
      exact Except.ok.inj h ▸ hcid
  have hfaultless : w.Faultless spell blobs (10 + ·) := by
    refine ⟨fun i b _ => ⟨b, ?_⟩, fun _ => rfl⟩
    simp [w, hspell]
  obtain ⟨n, hn, hdownload⟩ := @download_uploaded spell encodeNumbered decodeNumbered spell
    (fun b => (⟨manifestOf spell b, spell b⟩, (pieces CHUNK_SIZE b).map fun p => (spell p, p)))
    (fun _ _ => .error "") ⟨2⟩ blobs id client [7, 8] stored spell_injective
    decodeNumbered_encodeNumbered hclient rfl (fun p hp => List.mem_map_of_mem hp)
    (fun _ _ h => by cases h)
    (Or.inl ⟨_, _, _, hstored⟩)
  have hpieces : (pieces CHUNK_SIZE ([7, 8] : Bytes)).length = 1 := by
    rw [pieces_of_ne_nil (by decide) (by decide)]
    simp [CHUNK_SIZE]
  obtain ⟨hok, -, hexists⟩ := hdownload ⟨2⟩ w (10 + ·) (fun _ => none) (.ofString "/g") hw
    (by simp only [id]; omega)
  obtain ⟨after, hafter⟩ := hexists hfaultless (by decide)
  exact ⟨client, stored, w, after, hstored, hafter, (hok _ _ hafter).2⟩

end Store

end CeDrive
