import CSE130.Filesys.SectorUse
import CSE130.Library.Stdio

/-!
# Files are growable byte arrays

A file shows a list of bytes: the data sectors that it may have hold these bytes, then zeros. Creating,
writing and reading on any number of files returns what the same calls return on lists of bytes.
-/

namespace CSE130.Filesys

open CSE130.Library InodeDisk Store

/-! ## The calls on lists of bytes -/

/-- The calls; a file is given by its number in the order of creation. -/
inductive FileCall where
  | create (length : Int32) (isDir : Bool)
  | write (i : Nat) (buffer : List UInt8) (offset : Nat)
  | read (i : Nat) (size offset : Nat)
  deriving DecidableEq, Repr

/-- A call that may be made: its file exists, and no file becomes too large. -/
def FileCall.Valid (count : Nat) : FileCall → Prop
  | .create length _ => 0 ≤ length.toInt ∧ length.toInt ≤ 512 * maxSectors
  | .write i buffer offset =>
    i < count ∧ 0 < buffer.length ∧ offset + buffer.length ≤ 512 * maxSectors
  | .read i _ _ => i < count

instance (count : Nat) (c : FileCall) : Decidable (c.Valid count) :=
  match c with
  | .create length _ =>
    inferInstanceAs (Decidable (0 ≤ length.toInt ∧ length.toInt ≤ 512 * maxSectors))
  | .write i buffer offset => inferInstanceAs
    (Decidable (i < count ∧ 0 < buffer.length ∧ offset + buffer.length ≤ 512 * maxSectors))
  | .read i _ _ => inferInstanceAs (Decidable (i < count))

/-- One call on lists of bytes. -/
def modelStep (files : List (List UInt8)) : FileCall → Reply × List (List UInt8)
  | .create length _ => (.none, files ++ [List.replicate length.toInt.toNat 0])
  | .write i buffer offset =>
    (.count buffer.length, files.modify i fun bytes => writeAt bytes offset buffer)
  | .read i size offset => (.bytes (((files.getD i []).drop offset).take size), files)

/-- What the calls return on lists of bytes. -/
def runModel : List (List UInt8) → List FileCall → List Reply
  | _, [] => []
  | files, c :: calls => (modelStep files c).1 :: runModel (modelStep files c).2 calls

/-- All calls may be made, one after the other. -/
def ValidCalls : List (List UInt8) → List FileCall → Prop
  | _, [] => True
  | files, c :: calls => c.Valid files.length ∧ ValidCalls (modelStep files c).2 calls

instance decidableValidCalls : (files : List (List UInt8)) → (calls : List FileCall) →
    Decidable (ValidCalls files calls)
  | _, [] => .isTrue trivial
  | files, c :: calls =>
    have := decidableValidCalls (modelStep files c).2 calls
    inferInstanceAs (Decidable (c.Valid files.length ∧ ValidCalls (modelStep files c).2 calls))

/-! ## The calls on inodes -/

namespace FileSystem

/-- A sector is allocated, an inode is created in it, and it is opened. -/
def createFile (fs : FileSystem) (length : Int32) (isDir : Bool) :
    Except Stop (Nat × FileSystem) := do
  let (r, fs) ← fs.allocate
  match r with
  | .sector x => do
    let (_, fs) ← fs.create x length isDir
    fs.inodeOpen x
  | _ => .error .notAllowed

/-- The address of the inode of a file. -/
def handle (handles : List Nat) (i : Nat) : Except Stop Nat :=
  match handles[i]? with
  | some p => .ok p
  | none => .error .notAllowed

/-- One call on the files with the given inodes. -/
def fileStep (fs : FileSystem) (handles : List Nat) :
    FileCall → Except Stop (Reply × FileSystem × List Nat)
  | .create length isDir => do
    let (p, fs) ← fs.createFile length isDir
    pure (.none, fs, handles ++ [p])
  | .write i buffer offset => do
    let p ← handle handles i
    let (r, fs) ← fs.write p buffer offset
    pure (r, fs, handles)
  | .read i size offset => do
    let p ← handle handles i
    let (r, fs) ← fs.read p size offset
    pure (r, fs, handles)

/-- What the calls return. -/
def runFiles (fs : FileSystem) (handles : List Nat) : List FileCall → Except Stop (List Reply)
  | [] => .ok []
  | c :: calls => do
    let (r, fs, handles) ← fs.fileStep handles c
    let rs ← runFiles fs handles calls
    pure (r :: rs)

end FileSystem

/-! ## Bytes with zeros behind them -/

/-- The bytes with zeros up to the size of the largest file. -/
def padded (bytes : List UInt8) : List UInt8 :=
  bytes ++ List.replicate (512 * maxSectors - bytes.length) 0

section Padded

variable {bytes buffer : List UInt8} {offset n : Nat}

/-- Overwriting the padded bytes writes the bytes, gap included. -/
theorem overwrite_padded (h : buffer ≠ []) (hfits : offset + buffer.length ≤ 512 * maxSectors) :
    overwrite (padded bytes) offset buffer = padded (writeAt bytes offset buffer) := by
  have htake : (padded bytes).take offset =
      bytes.take offset ++ List.replicate (offset - bytes.length) 0 := by
    rw [padded, List.take_append, List.take_replicate]
    congr 2
    omega
  have hdrop : (padded bytes).drop (offset + buffer.length) =
      bytes.drop (offset + buffer.length) ++ List.replicate
        (512 * maxSectors - max bytes.length (offset + buffer.length)) 0 := by
    rw [padded, List.drop_append, List.drop_replicate]
    congr 2
    omega
  rw [overwrite, htake, hdrop, padded, length_writeAt h, writeAt, if_neg h]
  simp only [List.append_assoc]

theorem padded_replicate (h : n ≤ 512 * maxSectors) :
    padded (List.replicate n 0) = List.replicate (512 * maxSectors) 0 := by
  rw [padded, List.length_replicate, List.replicate_append_replicate]
  congr 1
  omega

end Padded

/-! ## Files that show bytes -/

open FileSystem

variable {base : Sector → Prop} {fs fs' : FileSystem} {p q : Nat} {bytes : List UInt8}
  {inode : Inode} {handles : List Nat} {files : List (List UInt8)} {c : FileCall}
  {calls : List FileCall}

/-- The inode at `p` is that of a file with these bytes. -/
def ShowsBytes (fs : FileSystem) (p : Nat) (bytes : List UInt8) : Prop :=
  ∃ inode, (p, inode) ∈ fs.openInodes ∧ inode.data.length.toInt = bytes.length ∧
    inode.data.flat fs.store.disk = padded bytes

/-- The open inodes other than that at `p` and their data are as before. -/
def KeepsOthers (p : Nat) (fs fs' : FileSystem) : Prop :=
  ∀ q ∈ fs.openInodes, q.1 ≠ p → q ∈ fs'.openInodes ∧
    ∀ z ∈ tree fs.store q.2.sector, fs'.store.disk z = fs.store.disk z

theorem ShowsBytes.keep (h : ShowsBytes fs q bytes) (hinv : fs.Inv base) (hne : q ≠ p)
    (hkeep : KeepsOthers p fs fs') : ShowsBytes fs' q bytes := by
  obtain ⟨inode, hq, hlen, hflat⟩ := h
  obtain ⟨hq', hdisk⟩ := hkeep _ hq hne
  refine ⟨inode, hq', hlen, ?_⟩
  rw [← hflat]
  apply flat_congr
  intro z hz
  apply hdisk
  rw [(hinv.table.opened _ hq).tree]
  exact List.mem_cons_of_mem _ hz

theorem ShowsBytes.lt (h : ShowsBytes fs p bytes) (hinv : fs.Inv base) : p < fs.nextInode := by
  obtain ⟨inode, hp, -, -⟩ := h
  exact hinv.table.fresh _ hp

/-- The content of a file. -/
theorem contents_of_padded {s : Store} {d : InodeDisk} (hlen : d.length.toInt = bytes.length)
    (hflat : d.flat s.disk = padded bytes) : d.contents s.disk = bytes := by
  rw [contents, hflat, hlen, padded]
  exact List.take_left' rfl

/-- Creating and opening a file. -/
theorem createFile_cases {length : Int32} {isDir : Bool} (h : fs.Inv base)
    (hnonneg : 0 ≤ length.toInt) (hfits : length.toInt ≤ 512 * maxSectors) :
    fs.createFile length isDir = .error .exhausted ∨
    ∃ fs', fs.createFile length isDir = .ok (fs.nextInode, fs') ∧ fs'.Inv base ∧
      KeepsOthers fs.nextInode fs fs' ∧
      ShowsBytes fs' fs.nextInode (List.replicate length.toInt.toNat 0) := by
  rcases allocate_cases h with hfull | ⟨x, fs₁, hrun₁, hkept₁, hsame₁, hres, hlive₁, hopen₁, hnext₁⟩
  · left
    rw [createFile, hfull]
    rfl
  have hstart : fs.createFile length isDir = (do
      let (_, fs) ← fs₁.create x length isDir
      fs.inodeOpen x) := by
    rw [createFile, hrun₁]
    rfl
  rw [hstart]
  rcases @create_cases base x fs₁ length isDir hkept₁.inv hres with
    ⟨e, herr, hreason⟩ | ⟨fs₂, d, hrun₂, hkept₂, hsame₂, hlive₂, hopen₂, hnext₂, hdisk, hlen, hflat⟩
  · left
    rw [herr, hreason.resolve_right (by omega)]
    rfl
  right
  have hx : x ∈ fs₂.live := by
    rw [hlive₂]
    exact List.mem_cons_self
  have hnew : ∀ q ∈ fs₂.openInodes, q.2.sector ≠ x := by
    intro q hq heq
    rw [hopen₂] at hq
    have hlive := (hkept₁.inv.table.opened q hq).live
    rw [heq] at hlive
    exact (hkept₁.inv.tree_owned hlive List.mem_cons_self).2.1 hres
  obtain ⟨fs₃, inode, hrun₃, hkept₃, hstore, hopen₃, hdata⟩ := inodeOpen_new hkept₂.inv hx hnew
  rw [hnext₂, hnext₁] at hrun₃ hopen₃
  rw [hdisk] at hdata
  refine ⟨fs₃, ?_, hkept₃.inv, ?_, ?_⟩
  · rw [hrun₂, ok_bind]
    exact hrun₃
  · intro q hq _
    have hlive := (h.table.opened q hq).live
    refine ⟨?_, ?_⟩
    · rw [hopen₃, hopen₂, hopen₁]
      exact List.mem_cons_of_mem _ hq
    · intro z hz
      have hlive' : q.2.sector ∈ fs₁.live := by rwa [hlive₁]
      rw [hstore, hsame₂ _ hlive' z (by rwa [tree_congr (hsame₁ _ hlive)]), hsame₁ _ hlive z hz]
  · refine ⟨inode, ?_, ?_, ?_⟩
    · rw [hopen₃]
      exact List.mem_cons_self
    · rw [hdata, hlen, List.length_replicate]
      omega
    · rw [hdata, hstore, hflat, padded_replicate (by omega)]

/-- Writing to a file. -/
theorem write_file {buffer : List UInt8} {offset : Nat} (h : fs.Inv base)
    (hp : ShowsBytes fs p bytes) (hpos : 0 < buffer.length)
    (hfits : offset + buffer.length ≤ 512 * maxSectors) :
    fs.write p buffer offset = .error .exhausted ∨
    ∃ fs', fs.write p buffer offset = .ok (.count buffer.length, fs') ∧ fs'.Inv base ∧
      KeepsOthers p fs fs' ∧ ShowsBytes fs' p (writeAt bytes offset buffer) := by
  have hmax : maxSectors = 16635 := rfl
  obtain ⟨inode, hmem, hlen, hflat⟩ := hp
  have hne : buffer ≠ [] := List.ne_nil_of_length_pos hpos
  have hsize : buffer.length < 2 ^ 31 := by omega
  have hoffset : offset < 2 ^ 31 := by omega
  rcases write_cases h hmem hpos hsize hoffset with
    ⟨e, herr, hreason⟩ | ⟨hlarge, -⟩ | ⟨s', inode', hrun, hkept, hframe, hlen', hflat'⟩
  · left
    rw [herr, hreason.resolve_right (by omega)]
  · omega
  · right
    refine ⟨_, hrun, hkept.inv, ?_, inode', ?_, ?_, ?_⟩
    · intro q hq hother
      refine ⟨List.mem_map.mpr ⟨q, hq, if_neg hother⟩, ?_⟩
      apply hframe _ (h.table.opened q hq).live
      intro heq
      rw [h.table.eq_of_sector hmem hq heq] at hother
      exact hother rfl
    · exact List.mem_map.mpr ⟨_, hmem, if_pos rfl⟩
    · rw [hlen', hlen, length_writeAt hne]
      omega
    · change inode'.data.flat s'.disk = _
      rw [hflat', hflat, overwrite_padded hne hfits]

/-- Reading from a file. -/
theorem read_file {size offset : Nat} (h : fs.Inv base) (hp : ShowsBytes fs p bytes) :
    fs.read p size offset = .ok (.bytes ((bytes.drop offset).take size), fs) := by
  obtain ⟨inode, hmem, hlen, hflat⟩ := hp
  rw [read_eq h hmem, contents_of_padded hlen hflat]

/-! ## Every sequence of calls -/

/-- The inodes of the files are different ones, and show the bytes of the files. -/
structure ShowsFiles (base : Sector → Prop) (fs : FileSystem) (handles : List Nat)
    (files : List (List UInt8)) : Prop where
  inv : fs.Inv base
  nodup : handles.Nodup
  length : handles.length = files.length
  shows : ∀ (i p : Nat) (bytes : List UInt8), handles[i]? = some p → files[i]? = some bytes →
    ShowsBytes fs p bytes

/-- A file that exists has an inode. -/
theorem ShowsFiles.file {i : Nat} (h : ShowsFiles base fs handles files) (hi : i < files.length) :
    ∃ p bytes, handle handles i = .ok p ∧ handles[i]? = some p ∧ files[i]? = some bytes ∧
      ShowsBytes fs p bytes := by
  have hi' : i < handles.length := by
    rw [h.length]
    exact hi
  have hp : handles[i]? = some handles[i] := List.getElem?_eq_getElem hi'
  have hbytes : files[i]? = some files[i] := List.getElem?_eq_getElem hi
  refine ⟨handles[i], files[i], ?_, hp, hbytes, h.shows i _ _ hp hbytes⟩
  rw [handle, hp]

/-- Each call returns what it returns on lists of bytes, or a sector could not be allocated. -/
theorem fileStep_shows (h : ShowsFiles base fs handles files) (hvalid : c.Valid files.length) :
    fs.fileStep handles c = .error .exhausted ∨
    ∃ fs' handles', fs.fileStep handles c = .ok ((modelStep files c).1, fs', handles') ∧
      ShowsFiles base fs' handles' (modelStep files c).2 := by
  cases c with
  | create length isDir =>
    rcases @createFile_cases base fs length isDir h.inv hvalid.1 hvalid.2 with
      hfull | ⟨fs', hrun, hinv, hkeep, hnew⟩
    · left
      rw [fileStep, hfull]
      rfl
    right
    have hold : ∀ (i p : Nat) (bytes : List UInt8), handles[i]? = some p → files[i]? = some bytes →
        p ≠ fs.nextInode ∧ ShowsBytes fs p bytes := by
      intro i p bytes hp hbytes
      have hshows := h.shows i p bytes hp hbytes
      exact ⟨Nat.ne_of_lt (hshows.lt h.inv), hshows⟩
    have hfresh : fs.nextInode ∉ handles := by
      intro hmem
      obtain ⟨i, hi, hp⟩ := List.mem_iff_getElem.mp hmem
      obtain ⟨p, bytes, -, hp', hbytes, -⟩ := h.file (by rwa [← h.length])
      have hne := (hold i p bytes hp' hbytes).1
      rw [List.getElem?_eq_getElem hi, Option.some_inj] at hp'
      exact hne (hp'.symm.trans hp)
    refine ⟨fs', handles ++ [fs.nextInode], ?_, hinv, ?_, ?_, ?_⟩
    · rw [fileStep, hrun]
      rfl
    · rw [List.nodup_append]
      refine ⟨h.nodup, List.nodup_singleton _, ?_⟩
      intro p hp q hq heq
      rw [List.mem_singleton.mp hq] at heq
      exact hfresh (heq ▸ hp)
    · simp only [modelStep, List.length_append, h.length, List.length_singleton]
    · intro i p bytes hp hbytes
      by_cases hi : i < handles.length
      · rw [List.getElem?_append_left hi] at hp
        rw [modelStep, List.getElem?_append_left (by rwa [← h.length])] at hbytes
        obtain ⟨hne, hshows⟩ := hold i p bytes hp hbytes
        exact hshows.keep h.inv hne hkeep
      · have hle : files.length ≤ i := by
          rw [← h.length]
          exact Nat.le_of_not_lt hi
        rw [List.getElem?_append_right (Nat.le_of_not_lt hi)] at hp
        rw [modelStep, List.getElem?_append_right hle, ← h.length] at hbytes
        have hlast : i - handles.length = 0 := by
          have hlt := (List.getElem?_eq_some_iff.mp hp).1
          rw [List.length_singleton] at hlt
          omega
        rw [hlast] at hp hbytes
        cases hp
        cases hbytes
        exact hnew
  | write i buffer offset =>
    obtain ⟨hi, hpos, hfits⟩ := hvalid
    obtain ⟨p, bytes, hhandle, hp, hbytes, hshows⟩ := h.file hi
    rcases write_file h.inv hshows hpos hfits with hfull | ⟨fs', hrun, hinv, hkeep, hnew⟩
    · left
      rw [fileStep, hhandle, ok_bind, hfull]
      rfl
    right
    refine ⟨fs', handles, ?_, hinv, h.nodup, ?_, ?_⟩
    · rw [fileStep, hhandle, ok_bind, hrun]
      rfl
    · rw [modelStep, List.length_modify]
      exact h.length
    · intro j q bytes' hq hbytes'
      rw [modelStep, List.getElem?_modify] at hbytes'
      by_cases hij : i = j
      · subst hij
        rw [hp] at hq
        rw [hbytes] at hbytes'
        cases hq
        simp only [if_true] at hbytes'
        cases hbytes'
        exact hnew
      · simp only [if_neg hij, id_map'] at hbytes'
        refine (h.shows j q bytes' hq hbytes').keep h.inv ?_ hkeep
        intro heq
        rw [heq] at hq
        exact hij ((List.getElem?_inj (List.getElem?_eq_some_iff.mp hp).1 h.nodup).mp
          (hp.trans hq.symm))
  | read i size offset =>
    right
    obtain ⟨p, bytes, hhandle, hp, hbytes, hshows⟩ := h.file hvalid
    refine ⟨fs, handles, ?_, h⟩
    rw [fileStep, hhandle, ok_bind, read_file h.inv hshows, modelStep, List.getD_eq_getElem?_getD,
      hbytes]
    rfl

theorem runFiles_shows (h : ShowsFiles base fs handles files) (hvalid : ValidCalls files calls) :
    fs.runFiles handles calls = .error .exhausted ∨
    fs.runFiles handles calls = .ok (runModel files calls) := by
  induction calls generalizing fs handles files with
  | nil => exact .inr rfl
  | cons c calls ih =>
    rcases fileStep_shows h hvalid.1 with hfull | ⟨fs', handles', hrun, hshows⟩
    · left
      rw [runFiles, hfull]
      rfl
    · rw [runFiles, hrun, ok_bind]
      rcases ih hshows hvalid.2 with hfull | hrest
      · left
        dsimp only
        rw [hfull]
        rfl
      · right
        dsimp only
        rw [hrest]
        rfl

/-- Every sequence of calls that may be made returns what it returns on lists of bytes, unless a sector
cannot be allocated. -/
theorem files_are_byteArrays (h : fs.Start) (hvalid : ValidCalls [] calls) :
    fs.runFiles [] calls = .error .exhausted ∨ fs.runFiles [] calls = .ok (runModel [] calls) := by
  refine runFiles_shows ⟨h.inv, List.nodup_nil, rfl, ?_⟩ hvalid
  intro i p bytes hp
  cases hp

theorem files_are_byteArrays_gap :
    smallSystem.runFiles [] [.create 1 false, .write 0 [7] 600, .create 3 true, .read 0 3 599] =
      .ok [.none, .count 1, .none, .bytes [0, 7]] := by
  have hvalid : ValidCalls [] [.create 1 false, .write 0 [7] 600, .create 3 true, .read 0 3 599] := by
    decide +kernel
  have hmodel : runModel [] [.create 1 false, .write 0 [7] 600, .create 3 true, .read 0 3 599] =
      [.none, .count 1, .none, .bytes [0, 7]] := by decide +kernel
  have hrun := files_are_byteArrays smallSystem_start hvalid
  rw [hmodel] at hrun
  refine hrun.resolve_left ?_
  intro hfull
  have hsome : (smallSystem.runFiles [] [.create 1 false, .write 0 [7] 600, .create 3 true,
      .read 0 3 599]).isOk = true := by decide +kernel
  rw [hfull] at hsome
  cases hsome

end CSE130.Filesys
