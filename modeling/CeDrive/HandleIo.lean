import CeDrive.Sparse
import CeDrive.WriteBack

/-!
# Reads, writes and truncations of an open file

`Vfs::read`, `write` and `truncate` of `crates/ce-drive-mount/src/vfs.rs`, each with the fetch
of the bytes that it starts with. A run of calls on one handle behaves as the sparse file that
holds the bytes of the handle (`Correct`, `Behaves`), as long as the sums of offsets and sizes
are below `2 ^ 64` and no buffer has to grow past `isize::MAX` (`handle_io_iff`). Neither is
checked, and both panic.

The block store is another one at each call : it may fail at some. Arithmetic is checked for
overflow. A release build wraps where this panics.
-/

namespace CeDrive

/-- A call on an open handle. -/
inductive HandleCall
  | read (offset : UInt64) (size : UInt32)
  | write (offset : UInt64) (data : List UInt8)
  | truncate (size : UInt64)

inductive Reply
  | bytes (bytes : List UInt8)
  | written (n : ℕ)
  | truncated

/-- A file of bytes, zero where nothing was written. -/
abbrev ByteFile := Sparse.File (0 : UInt8)

/-- What a call does to the reference file. -/
def HandleCall.apply (F : ByteFile) : HandleCall → ByteFile
  | .read _ _ => F
  | .write offset data => F.write offset.toNat data
  | .truncate size => F.truncate size.toNat

namespace Vfs

/-- Whether a file may have `n` bytes. -/
def Allows (v : Vfs) (n : ℕ) : Prop :=
  v.maxFileSize = 0 ∨ n ≤ v.maxFileSize

instance (v : Vfs) (n : ℕ) : Decidable (v.Allows n) :=
  inferInstanceAs (Decidable (_ ∨ _))

/-- The bytes of a handle, or those it is hydrated with. -/
def contents (v : Vfs) (store : BlockStore) (fh : ℕ) : Except String (List UInt8) :=
  match v.openFiles[fh]? with
  | none => .error ("bad file handle " ++ toString fh)
  | some file =>
    match file.buf with
    | some buf => .ok buf
    | none =>
      match v.nodeOf[file.ino]? with
      | none => .error "handle has no node"
      | some node => v.fetch store node

/-- Hydrate a handle and change its bytes to `size` many or fewer. A vector cannot grow past
`isize::MAX`. -/
def editTo (v : Vfs) (store : BlockStore) (fh size : ℕ) (f : List UInt8 → List UInt8) :
    Option (Except String Unit × Vfs) :=
  match v.hydrate store fh with
  | .error e => some (.error e, v)
  | .ok v =>
    match v.openFiles[fh]? with
    | none => some (.error ("bad file handle " ++ toString fh), v)
    | some file =>
      let buf := file.buf.getD []
      if buf.length < size ∧ 2 ^ 63 ≤ size then none
      else some (.ok (), { v with
        openFiles := v.openFiles.insert fh { file with buf := some (f buf), dirty := true } })

/-- `write`. The end of the write is a `u64`, at whose overflow a release build wraps, and its
result a `u32`. -/
def writeAt (v : Vfs) (store : BlockStore) (fh offset : ℕ) (data : List UInt8) :
    Option (Except String ℕ × Vfs) :=
  if 2 ^ 64 ≤ offset + data.length then none
  else if ¬v.Allows (offset + data.length) then
    some (.error ("write to " ++ toString (offset + data.length) ++ " bytes exceeds the " ++
      toString v.maxFileSize ++ "-byte per-file limit"), v)
  else
    (v.editTo store fh (offset + data.length) fun buf => overwrite buf offset data).map fun r =>
      (r.1.map fun _ => data.length % 2 ^ 32, r.2)

/-- `truncate`. -/
def truncateTo (v : Vfs) (store : BlockStore) (fh size : ℕ) : Option (Except String Unit × Vfs) :=
  if ¬v.Allows size then
    some (.error ("truncate to " ++ toString size ++ " bytes exceeds the " ++
      toString v.maxFileSize ++ "-byte per-file limit"), v)
  else v.editTo store fh size fun buf => resize buf size

def performCall (v : Vfs) (store : BlockStore) (fh : ℕ) :
    HandleCall → Option (Except String Reply × Vfs)
  | .read offset size =>
    (v.read store fh offset.toNat size.toNat).map fun r => (r.1.map .bytes, r.2)
  | .write offset data =>
    (v.writeAt store fh offset.toNat data).map fun r => (r.1.map .written, r.2)
  | .truncate size =>
    (v.truncateTo store fh size.toNat).map fun r => (r.1.map fun _ => .truncated, r.2)

/-! ## The reference file -/

/-- The handle has bytes, and they are those of `F`. -/
def Holds (v : Vfs) (fh : ℕ) (F : ByteFile) : Prop :=
  ∃ file bytes, v.openFiles[fh]? = some file ∧ file.buf = some bytes ∧ .ofList bytes = F

/-- What a call on a handle with the file `F` may return. An error changes nothing, and a read
has one only if it has no bytes to read. After a success the handle holds what the call makes
of `F`, a read returns the bytes of `F` in its range, and a write or truncation is within the
limit. -/
def Correct (v : Vfs) (store : BlockStore) (fh : ℕ) (F : ByteFile) (call : HandleCall)
    (r : Except String Reply × Vfs) : Prop :=
  match r.1 with
  | .error _ => r.2 = v ∧ ∀ offset size, call = .read offset size →
      ∃ e, v.contents store fh = .error e
  | .ok reply => r.2.Holds fh (call.apply F) ∧ r.2.maxFileSize = v.maxFileSize ∧
      match call with
      | .read offset size => reply = .bytes (F.read offset.toNat size.toNat)
      | .write offset data => v.Allows (offset.toNat + data.length)
      | .truncate size => v.Allows size.toNat

/-- Every call of a run returns, what it may. -/
def Behaves (fh : ℕ) : Vfs → ByteFile → List (BlockStore × HandleCall) → Prop
  | _, _, [] => True
  | v, F, (store, call) :: calls =>
    ∃ r, v.performCall store fh call = some r ∧ v.Correct store fh F call r ∧
      Behaves fh r.2 (if r.1.isOk then call.apply F else F) calls

/-- The sum of the call fits a `u64`, and no buffer grows past `isize::MAX` for it. -/
def InRange (v : Vfs) (store : BlockStore) (fh : ℕ) : HandleCall → Prop
  | .read offset size => ∀ bytes, v.contents store fh = .ok bytes →
      offset.toNat + size.toNat < 2 ^ 64
  | .write offset data => offset.toNat + data.length < 2 ^ 64 ∧
      (v.Allows (offset.toNat + data.length) → ∀ bytes, v.contents store fh = .ok bytes →
        bytes.length < offset.toNat + data.length → offset.toNat + data.length < 2 ^ 63)
  | .truncate size => v.Allows size.toNat → ∀ bytes, v.contents store fh = .ok bytes →
      bytes.length < size.toNat → size.toNat < 2 ^ 63

/-- Every call of the run is in range. -/
def RunInRange (fh : ℕ) : Vfs → List (BlockStore × HandleCall) → Prop
  | _, [] => True
  | v, (store, call) :: calls => v.InRange store fh call ∧
      ∀ r, v.performCall store fh call = some r → RunInRange fh r.2 calls

variable {v v' : Vfs} {store : BlockStore} {fh size offset : ℕ} {bytes : List UInt8} {e : String}
  {F : ByteFile} {f : List UInt8 → List UInt8} {call : HandleCall}
  {calls : List (BlockStore × HandleCall)}

theorem hydrate_of_contents_error (h : v.contents store fh = .error e) :
    v.hydrate store fh = .error e := by
  unfold contents at h
  unfold hydrate
  cases hfile : v.openFiles[fh]? with
  | none => simpa [hfile] using h
  | some file =>
    simp only [hfile] at h ⊢
    cases hbuf : file.buf with
    | some buf => simp [hbuf] at h
    | none =>
      simp only [hbuf] at h
      cases hnode : v.nodeOf[file.ino]? with
      | none => simpa [hnode] using h
      | some node =>
        simp only [hnode] at h
        simp [h, Except.map]

theorem hydrate_of_contents_ok (h : v.contents store fh = .ok bytes) :
    ∃ v' file, v.hydrate store fh = .ok v' ∧ v'.openFiles[fh]? = some file ∧
      file.buf = some bytes ∧ v'.maxFileSize = v.maxFileSize := by
  unfold contents at h
  unfold hydrate
  cases hfile : v.openFiles[fh]? with
  | none => simp [hfile] at h
  | some file =>
    simp only [hfile] at h ⊢
    cases hbuf : file.buf with
    | some buf =>
      simp only [hbuf, Except.ok.injEq] at h
      exact ⟨v, file, rfl, hfile, hbuf.trans (congrArg some h), rfl⟩
    | none =>
      simp only [hbuf] at h
      cases hnode : v.nodeOf[file.ino]? with
      | none => simp [hnode] at h
      | some node =>
        simp only [hnode] at h
        have hfill : v.fill fh bytes = { v with
            openFiles := v.openFiles.insert fh { file with buf := some bytes } } := by
          simp [fill, hfile, hbuf]
        refine ⟨v.fill fh bytes, { file with buf := some bytes }, ?_, ?_, rfl, ?_⟩
        · simp [h, Except.map]
        · simp [hfill]
        · rw [hfill]

theorem contents_of_buf {file : OpenFile} (hfile : v.openFiles[fh]? = some file)
    (hbuf : file.buf = some bytes) : v.contents store fh = .ok bytes := by
  simp [contents, hfile, hbuf]

/-- An edit fails if there are no bytes to edit, panics if they outgrow a vector, and changes
the bytes of the handle only. -/
theorem editTo_spec (v : Vfs) (store : BlockStore) (fh size : ℕ)
    (f : List UInt8 → List UInt8) :
    (∃ e, v.contents store fh = .error e ∧ v.editTo store fh size f = some (.error e, v)) ∨
    ∃ bytes, v.contents store fh = .ok bytes ∧
      ((bytes.length < size ∧ 2 ^ 63 ≤ size) ∧ v.editTo store fh size f = none ∨
        ¬(bytes.length < size ∧ 2 ^ 63 ≤ size) ∧
        ∃ v', v.editTo store fh size f = some (.ok (), v') ∧ v'.Holds fh (.ofList (f bytes)) ∧
          v'.maxFileSize = v.maxFileSize) := by
  cases h : v.contents store fh with
  | error e => exact Or.inl ⟨e, rfl, by simp [editTo, hydrate_of_contents_error h]⟩
  | ok bytes =>
    obtain ⟨v₁, file, hhydrate, hfile, hbuf, hmax⟩ := hydrate_of_contents_ok h
    refine Or.inr ⟨bytes, rfl, ?_⟩
    simp only [editTo, hhydrate, hfile, hbuf, Option.getD_some]
    split_ifs with hsize
    · exact Or.inl ⟨hsize, rfl⟩
    · refine Or.inr ⟨hsize, _, rfl, ⟨_, _, Std.ExtTreeMap.getElem?_insert_self, rfl, rfl⟩, hmax⟩

theorem ofList_resize (bytes : List UInt8) (size : ℕ) :
    (.ofList (resize bytes size) : ByteFile) = (Sparse.File.ofList bytes).truncate size :=
  (Sparse.File.truncate_ofList bytes size).symm

theorem ofList_overwrite (bytes : List UInt8) (offset : ℕ) (data : List UInt8) :
    (.ofList (overwrite bytes offset data) : ByteFile) =
      (Sparse.File.ofList bytes).write offset data := by
  unfold overwrite
  dsimp only
  split_ifs with hlt
  · have hlength : offset + data.length ≤ (resize bytes (offset + data.length)).length := by
      simp only [resize, List.length_append, List.length_take, List.length_replicate]
      omega
    rw [← Sparse.File.write_ofList hlength, ofList_resize, Sparse.File.write_truncate hlt.le]
  · exact (Sparse.File.write_ofList (not_lt.1 hlt)).symm

theorem Holds.contents_eq (h : v.Holds fh F) (store : BlockStore) :
    ∃ bytes, v.contents store fh = .ok bytes ∧ .ofList bytes = F := by
  obtain ⟨file, bytes, hfile, hbuf, rfl⟩ := h
  exact ⟨bytes, contents_of_buf hfile hbuf, rfl⟩

/-! ## One call -/

section Call

variable (hF : ∀ bytes, v.contents store fh = .ok bytes → .ofList bytes = F)
include hF

theorem read_correct_iff (offset : UInt64) (size : UInt32) :
    (∃ r, v.performCall store fh (.read offset size) = some r ∧
      v.Correct store fh F (.read offset size) r) ↔ v.InRange store fh (.read offset size) := by
  rw [performCall, read, InRange]
  cases hcontents : v.contents store fh with
  | error e =>
    rw [hydrate_of_contents_error hcontents]
    exact iff_of_true ⟨(.error e, v), rfl, rfl, fun _ _ _ => ⟨e, hcontents⟩⟩ (by simp)
  | ok bytes =>
    obtain ⟨v₁, file, hhydrate, hfile, hbuf, hmax⟩ := hydrate_of_contents_ok hcontents
    simp only [hhydrate, hfile, hbuf]
    split_ifs with hend
    · refine iff_of_false (by simp) fun h => ?_
      exact absurd (h bytes rfl) hend.not_gt
    · have hsum : offset.toNat + size.toNat < 2 ^ 64 := not_le.1 hend
      refine iff_of_true ⟨_, rfl, ⟨file, bytes, hfile, hbuf, hF bytes hcontents⟩, hmax, ?_⟩
        fun _ _ => hsum
      rw [slice_eq, ← Sparse.File.read_ofList, hF bytes hcontents]

/-- An edit that the limit allows may panic only where the bytes outgrow a vector. -/
theorem edit_correct_iff (call : HandleCall) {reply : Reply}
    (hread : ∀ offset size, call ≠ .read offset size)
    (hf : ∀ bytes, .ofList (f bytes) = call.apply (.ofList bytes))
    (hok : ∀ v' : Vfs, v'.Holds fh (call.apply F) → v'.maxFileSize = v.maxFileSize →
      v.Correct store fh F call (.ok reply, v')) :
    (∃ r, ((v.editTo store fh size f).map fun r => (r.1.map fun _ => reply, r.2)) = some r ∧
      v.Correct store fh F call r) ↔
        ∀ bytes, v.contents store fh = .ok bytes → bytes.length < size → size < 2 ^ 63 := by
  obtain ⟨e, hcontents, hedit⟩ | ⟨bytes, hcontents, ⟨hsize, hedit⟩ | ⟨hsize, v', hedit, hrest⟩⟩ :=
    editTo_spec v store fh size f
  · rw [hedit, hcontents]
    exact iff_of_true ⟨(.error e, v), rfl, rfl, fun _ _ h => absurd h (hread _ _)⟩ nofun
  · rw [hedit]
    refine iff_of_false nofun fun h => ?_
    exact (h bytes hcontents hsize.1).not_ge hsize.2
  · rw [hedit, hcontents]
    have hholds : v'.Holds fh (call.apply F) := by
      rw [← hF bytes hcontents, ← hf]
      exact hrest.1
    refine iff_of_true ⟨(.ok reply, v'), rfl, hok v' hholds hrest.2⟩ fun bytes' h hlt => ?_
    obtain rfl := Except.ok.inj h
    exact not_le.1 fun h63 => hsize ⟨hlt, h63⟩

theorem write_correct_iff (offset : UInt64) (data : List UInt8) :
    (∃ r, v.performCall store fh (.write offset data) = some r ∧
      v.Correct store fh F (.write offset data) r) ↔ v.InRange store fh (.write offset data) := by
  rw [performCall, writeAt, InRange]
  split_ifs with hend hlimit
  · exact iff_of_false nofun fun h => hend.not_gt h.1
  · have hreply : ((fun r : Except String ℕ × Vfs => (r.1.map Reply.written, r.2)) ∘
        fun r : Except String Unit × Vfs => (r.1.map fun _ => data.length % 2 ^ 32, r.2)) =
          fun r => (r.1.map fun _ => .written (data.length % 2 ^ 32), r.2) := by
      funext ⟨result, v⟩
      cases result <;> rfl
    rw [Option.map_map, hreply, and_iff_right (not_le.1 hend), forall_prop_of_true hlimit]
    exact edit_correct_iff hF (.write offset data) nofun
      (fun bytes => ofList_overwrite bytes _ data) fun v' hholds hmax => ⟨hholds, hmax, hlimit⟩
  · exact iff_of_true ⟨_, rfl, rfl, nofun⟩ ⟨not_le.1 hend, fun h => absurd h hlimit⟩

theorem truncate_correct_iff (size : UInt64) :
    (∃ r, v.performCall store fh (.truncate size) = some r ∧
      v.Correct store fh F (.truncate size) r) ↔ v.InRange store fh (.truncate size) := by
  rw [performCall, truncateTo, InRange]
  split_ifs with hlimit
  · rw [forall_prop_of_true hlimit]
    exact edit_correct_iff hF (.truncate size) nofun (fun bytes => ofList_resize bytes _)
      fun v' hholds hmax => ⟨hholds, hmax, hlimit⟩
  · exact iff_of_true ⟨_, rfl, rfl, nofun⟩ fun h => absurd h hlimit

/-- A call returns what it may if and only if it is in range. -/
theorem correct_iff_inRange (call : HandleCall) :
    (∃ r, v.performCall store fh call = some r ∧ v.Correct store fh F call r) ↔
      v.InRange store fh call := by
  cases call with
  | read offset size => exact read_correct_iff hF offset size
  | write offset data => exact write_correct_iff hF offset data
  | truncate size => exact truncate_correct_iff hF size

end Call

/-- What the handle has after a call is what the call makes of the reference file. -/
theorem Correct.contents_eq {r : Except String Reply × Vfs} (h : v.Correct store fh F call r)
    {store' : BlockStore} (hF : ∀ bytes, v.contents store' fh = .ok bytes → .ofList bytes = F)
    (hbytes : r.2.contents store' fh = .ok bytes) :
    .ofList bytes = if r.1.isOk then call.apply F else F := by
  obtain ⟨result, v'⟩ := r
  cases result with
  | error e =>
    obtain ⟨rfl, -⟩ := h
    exact hF bytes hbytes
  | ok reply =>
    obtain ⟨bytes', hbytes', hfile⟩ := h.1.contents_eq store'
    rw [hbytes] at hbytes'
    exact Except.ok.inj hbytes' ▸ hfile

theorem behaves_iff (hF : ∀ c ∈ calls, ∀ bytes, v.contents c.1 fh = .ok bytes → .ofList bytes = F) :
    Behaves fh v F calls ↔ RunInRange fh v calls := by
  induction calls generalizing v F with
  | nil => exact Iff.rfl
  | cons c calls ih =>
    obtain ⟨store, call⟩ := c
    have hstep := correct_iff_inRange (hF _ List.mem_cons_self) call
    have hrest : ∀ r, v.Correct store fh F call r →
        (Behaves fh r.2 (if r.1.isOk then call.apply F else F) calls ↔
          RunInRange fh r.2 calls) := fun r hr =>
      ih fun c hc bytes hbytes => hr.contents_eq (hF c (List.mem_cons_of_mem _ hc)) hbytes
    constructor
    · rintro ⟨r, hr, hcorrect, hbehaves⟩
      refine ⟨hstep.1 ⟨r, hr, hcorrect⟩, fun r' hr' => ?_⟩
      obtain rfl := Option.some_injective _ (hr.symm.trans hr')
      exact (hrest r hcorrect).1 hbehaves
    · rintro ⟨hrange, hrun⟩
      obtain ⟨r, hr, hcorrect⟩ := hstep.2 hrange
      exact ⟨r, hr, hcorrect, (hrest r hcorrect).2 (hrun r hr)⟩

/-- A run of calls on a handle behaves as the sparse file of its bytes if and only if every
call is in range. -/
theorem handle_io_iff (v : Vfs) (fh : ℕ) (bytes : List UInt8)
    (calls : List (BlockStore × HandleCall))
    (hserve : ∀ c ∈ calls, ∀ bytes', v.contents c.1 fh = .ok bytes' → bytes' = bytes) :
    Behaves fh v (.ofList bytes) calls ↔ RunInRange fh v calls :=
  behaves_iff fun c hc bytes' h => congrArg _ (hserve c hc bytes' h)

theorem handle_io_iff_grown :
    let v := ((written 3).foldlM perform (.new (.init "d" "a") 0)).get (by decide +kernel)
    Behaves 1 v (.ofList [65])
      [(.spelled, .write 3 [66]), (.spelled, .truncate 2), (.spelled, .read 0 9)] := by
  intro v
  have hfile : v.openFiles[1]? = some ⟨2, some [65], true⟩ := by decide +kernel
  refine (handle_io_iff v 1 [65] _ fun c _ bytes h => ?_).2 ⟨⟨by decide, fun _ _ _ _ => by decide⟩,
    fun _ _ => ⟨fun _ _ _ _ => by decide, fun _ _ => ⟨fun _ _ => by decide, fun _ _ => trivial⟩⟩⟩
  rw [contents_of_buf hfile rfl] at h
  exact (Except.ok.inj h).symm

/-- A read of one byte at the last offset panics. -/
theorem read_panics :
    let v := ((written 3).foldlM perform (.new (.init "d" "a") 0)).get (by decide +kernel)
    v.Reachable ∧ v.Holds 1 (.ofList [65]) ∧
      ¬Behaves 1 v (.ofList [65]) [(.spelled, .read 18446744073709551615 1)] := by
  intro v
  have hv : v.Reachable := Reachable.run (.new ⟨"d", "a", [], rfl⟩ 0)
    (by simp [written, Event.Valid]) (Option.some_get _).symm
  have hfile : v.openFiles[1]? = some ⟨2, some [65], true⟩ := by decide +kernel
  refine ⟨hv, ⟨_, [65], hfile, rfl, rfl⟩, ?_⟩
  rintro ⟨r, hr, -⟩
  have hnone : (v.performCall .spelled 1 (.read 18446744073709551615 1)).isNone := by
    decide +kernel
  simp [hr] at hnone

end Vfs

end CeDrive
