import CSE130.Filesys.Mount
import CSE130.Filesys.StoreEffects
import CSE130.Filesys.WriteLength

/-!
# Opening directories

Going along a path opens an inode and closes the one before, so that nothing is left of it but a reference
to the directory that was found. Looking up a name reads the directory as a list of entries.
-/

namespace CSE130.Filesys.Mount

open CSE130.Library DirEntry

variable {st st' st₁ : Mount} {s : Store} {x y dir : Sector} {e : DirEntry} {name : List UInt8}

/-! ## Steps -/

theorem mount_eq (hstore : st'.store = st.store) (hinodes : st'.inodes = st.inodes) : st' = st := by
  obtain ⟨store, inodes⟩ := st
  obtain ⟨store', inodes'⟩ := st'
  cases hstore
  cases hinodes
  rfl

theorem onDisk_of_ok {α : Type} {m : StoreM α} {a : α} {s : Store} (h : m st.store = .ok a s) :
    onDisk m st = .ok a { st with store := s } := by
  rw [onDisk, h]

theorem ok_of_onDisk {α : Type} {m : StoreM α} {a : α} (h : onDisk m st = .ok a st') :
    m st.store = .ok a st'.store ∧ st'.inodes = st.inodes := by
  rw [onDisk] at h
  cases hm : m st.store with
  | error p s => rw [hm] at h; cases h
  | ok b s =>
    rw [hm] at h
    cases h
    exact ⟨rfl, rfl⟩

theorem inodeAt_of_some {inode : Inode} (h : st.inodes x = some inode) : inodeAt x st = .ok inode st := by
  rw [inodeAt, h]

theorem ok_of_inodeAt {inode : Inode} (h : inodeAt x st = .ok inode st') :
    st.inodes x = some inode ∧ st' = st := by
  rw [inodeAt] at h
  cases hx : st.inodes x with
  | none => rw [hx] at h; cases h
  | some inode =>
    rw [hx] at h
    cases h
    exact ⟨rfl, rfl⟩

@[simp] theorem withInode_self (inode : Option Inode) : (st.withInode x inode).inodes x = inode :=
  Function.update_self _ _ _

theorem withInode_of_ne {inode : Option Inode} (h : y ≠ x) :
    (st.withInode x inode).inodes y = st.inodes y := Function.update_of_ne h _ _

@[simp] theorem withInode_store (inode : Option Inode) : (st.withInode x inode).store = st.store := rfl

theorem withInode_eq {inode : Option Inode} (h : st.inodes x = inode) : st.withInode x inode = st := by
  rw [withInode, ← h, Function.update_eq_self]

/-! ## References -/

/-- The in-memory inode of a sector after it has been opened. -/
def opened (st : Mount) (x : Sector) : Inode :=
  match st.inodes x with
  | some inode => { inode with openCnt := inode.openCnt + 1 }
  | none =>
    { sector := x
      openCnt := 1
      removed := false
      denyWriteCnt := 0
      data := InodeDisk.ofSector (st.store.disk x) }

/-- The state with one more reference to the inode of a sector. -/
def ref (st : Mount) (x : Sector) : Mount := st.withInode x (some (st.opened x))

/-- Every inode in memory is open. -/
def AllOpen (st : Mount) : Prop := ∀ x inode, st.inodes x = some inode → 0 < inode.openCnt

@[simp] theorem ref_store : (st.ref x).store = st.store := rfl

theorem ref_self : (st.ref x).inodes x = some (st.opened x) := withInode_self _

theorem AllOpen.ref (h : AllOpen st) : AllOpen (st.ref x) := by
  intro y inode hy
  by_cases hyx : y = x
  · subst hyx
    rw [ref_self, Option.some.injEq] at hy
    subst hy
    rw [opened]
    split
    · exact Nat.succ_pos _
    · exact Nat.one_pos
  · rw [Mount.ref, withInode_of_ne hyx] at hy
    exact h y inode hy

theorem ref_comm : (st.ref x).ref y = (st.ref y).ref x := by
  by_cases hxy : x = y
  · rw [hxy]
  have hy : (st.ref x).opened y = st.opened y := by
    rw [opened, ref, withInode_of_ne (Ne.symm hxy), opened]
    rfl
  have hx : (st.ref y).opened x = st.opened x := by
    rw [opened, ref, withInode_of_ne hxy, opened]
    rfl
  rw [ref, hy, ref, ref, hx, ref, withInode, withInode, withInode, withInode,
    Function.update_comm hxy]

theorem ok_of_inodeReopen (h : inodeReopen x st = .ok () st') : st' = st.ref x := by
  obtain ⟨inode, t, hat, hset⟩ := ok_of_bind h
  obtain ⟨hx, rfl⟩ := ok_of_inodeAt hat
  cases hset
  rw [ref, opened, hx]

theorem ok_of_inodeOpen (h : inodeOpen x st = .ok () st') : st' = st.ref x := by
  rw [inodeOpen, get_bind] at h
  cases hx : st.inodes x with
  | some inode =>
    rw [hx] at h
    exact ok_of_inodeReopen h
  | none =>
    rw [hx] at h
    obtain ⟨b, t, hread, hset⟩ := ok_of_bind h
    obtain ⟨hread, hinodes⟩ := ok_of_onDisk hread
    have hstore : st.store = t.store := bufferCacheRead_staysIn x hread
    have hb : b = st.store.disk x := by
      rw [bufferCacheRead] at hread
      split_ifs at hread
      rw [EStateM.Result.ok.injEq] at hread
      exact hread.1.symm
    have ht : t = st := mount_eq hstore.symm hinodes
    cases hset
    rw [ht, hb, ref, opened, hx]

/-- Closing an inode takes the reference away. -/
theorem inodeClose_ref (h : AllOpen st) (hinodes : st'.inodes = (st.ref x).inodes) :
    inodeClose x st' = .ok () { st' with inodes := st.inodes } := by
  have hat : inodeAt x st' = .ok (st.opened x) st' := inodeAt_of_some (by rw [hinodes, ref_self])
  have hback : ∀ inode, st.inodes x = inode →
      st'.withInode x inode = { st' with inodes := st.inodes } := by
    intro inode hx
    rw [withInode, hinodes, ref, withInode, Function.update_idem, ← hx, Function.update_eq_self]
  rw [inodeClose, bind_of_ok hat]
  cases hx : st.inodes x with
  | none =>
    have hcount : (st.opened x).openCnt = 1 := by rw [opened, hx]
    have hremoved : (st.opened x).removed = false := by rw [opened, hx]
    rw [hcount, hremoved, ← hback none hx]
    rfl
  | some inode =>
    have hopened : st.opened x = { inode with openCnt := inode.openCnt + 1 } := by rw [opened, hx]
    have hpos : inode.openCnt ≠ 0 := Nat.ne_of_gt (h x inode hx)
    rw [hopened, ← hback (some inode) hx, Nat.add_sub_cancel, if_neg hpos]
    rfl

/-! ## Looking up names -/

theorem readInode_staysIn (x : Sector) (size offset : Nat) : StaysIn Eq (readInode x size offset) := by
  intro st bs st' hrun
  obtain ⟨inode, t, hat, hread⟩ := ok_of_bind hrun
  obtain ⟨-, rfl⟩ := ok_of_inodeAt hat
  obtain ⟨hread, hinodes⟩ := ok_of_onDisk hread
  exact (mount_eq (inodeReadAt_staysIn _ _ hread).symm hinodes).symm

theorem scanLoop_staysIn (p : DirEntry → Bool) (rounds : Nat) (e : DirEntry) (ofs : Nat) :
    StaysIn Eq (scanLoop dir p rounds e ofs) := by
  induction rounds generalizing e ofs with
  | zero => exact .throw
  | succ rounds ih =>
    refine .bind (readInode_staysIn _ _ _) fun bs => .ite (fun _ => ?_) fun _ => .pure
    exact .ite (fun _ => .pure) fun _ => ih _ _

theorem inodeAt_staysIn (x : Sector) : StaysIn Eq (inodeAt x) :=
  fun _ _ _ hrun => (ok_of_inodeAt hrun).2.symm

theorem lookup_staysIn (dir : Sector) (name : List UInt8) : StaysIn Eq (lookup dir name) := by
  refine .bind ?_ fun r => .pure
  exact .bind (inodeAt_staysIn _) fun inode => scanLoop_staysIn _ _ _ _

/-- The state with a reference to the inode of a sector, if there is one. -/
def refSome (st : Mount) : Option Sector → Mount
  | none => st
  | some x => st.ref x

/-- After `dir_lookup` the inode that was found is open, and nothing else has changed. -/
theorem ok_of_dirLookup {found : Option Sector} (h : dirLookup e dir name st = .ok found st') :
    st' = st.refSome found := by
  rw [dirLookup] at h
  split_ifs at h
  · obtain ⟨_, t, hopen, hrest⟩ := ok_of_bind h
    cases hrest
    exact ok_of_inodeReopen hopen
  · obtain ⟨bs, t, hread, hrest⟩ := ok_of_bind h
    cases readInode_staysIn _ _ _ hread
    obtain ⟨_, t', hopen, hrest⟩ := ok_of_bind hrest
    cases hrest
    exact ok_of_inodeOpen hopen
  · obtain ⟨r, t, hlookup, hrest⟩ := ok_of_bind h
    cases lookup_staysIn _ _ hlookup
    cases r with
    | none =>
      cases hrest
      rfl
    | some r =>
      obtain ⟨_, t', hopen, hrest⟩ := ok_of_bind hrest
      cases hrest
      exact ok_of_inodeOpen hopen

/-- The directory that was found is open and has not been removed. -/
def Found (st st' : Mount) (dir : Option Sector) : Prop :=
  st' = st.refSome dir ∧ ∀ d, dir = some d → (st.opened d).removed = false

theorem ok_of_walkPath {e : Nat → DirEntry} {tokens : List (List UInt8)} {found : Option Sector}
    (hopen : AllOpen st) (h : walkPath e x tokens (st.ref x) = .ok found st') : Found st st' found := by
  induction tokens generalizing x with
  | nil =>
    obtain ⟨inode, t, hat, hrest⟩ := ok_of_bind h
    obtain ⟨hx, rfl⟩ := ok_of_inodeAt hat
    rw [ref_self, Option.some.injEq] at hx
    subst hx
    split_ifs at hrest with hremoved
    · rw [bind_of_ok (inodeClose_ref hopen rfl)] at hrest
      cases hrest
      exact ⟨rfl, nofun⟩
    · cases hrest
      refine ⟨rfl, ?_⟩
      rintro d ⟨⟩
      simpa using hremoved
  | cons token tokens ih =>
    obtain ⟨next, t, hlookup, hrest⟩ := ok_of_bind h
    have ht := ok_of_dirLookup hlookup
    subst ht
    cases next with
    | none =>
      have hback : inodeClose x (st.ref x) = .ok () st := inodeClose_ref hopen rfl
      rw [refSome, bind_of_ok hback] at hrest
      cases hrest
      exact ⟨rfl, nofun⟩
    | some next =>
      have hback : inodeClose x ((st.ref x).ref next) = .ok () (st.ref next) := by
        rw [ref_comm]
        exact inodeClose_ref hopen.ref rfl
      rw [refSome, bind_of_ok hback] at hrest
      exact ih hrest

theorem ok_of_dirOpenPath {e : Nat → DirEntry} {cwd : Option Sector} {path : List UInt8}
    {found : Option Sector} (hopen : AllOpen st) (h : dirOpenPath e cwd path st = .ok found st') :
    Found st st' found := by
  obtain ⟨curr, t, hstart, hwalk⟩ := ok_of_bind h
  have ht : t = st.ref curr := by
    unfold openStart at hstart
    split_ifs at hstart
    · obtain ⟨_, t', hroot, hrest⟩ := ok_of_bind hstart
      cases hrest
      exact ok_of_inodeOpen hroot
    · cases cwd with
      | none =>
        obtain ⟨_, t', hroot, hrest⟩ := ok_of_bind hstart
        cases hrest
        exact ok_of_inodeOpen hroot
      | some x =>
        obtain ⟨_, t', hcwd, hrest⟩ := ok_of_bind hstart
        cases hrest
        exact ok_of_inodeReopen hcwd
  subst ht
  exact ok_of_walkPath hopen hwalk

/-! ## Directories as lists of entries -/

theorem length_contents {d : InodeDisk} (h : d.Covered s.disk s.size) :
    (d.contents s.disk).length = d.length.toInt.toNat := by
  have hfits := h.fits
  have hnonneg := h.nonneg
  unfold InodeDisk.numSectors at hfits
  rw [InodeDisk.contents, List.length_take, length_flat h.proper]
  omega

/-- The contents of the inodes, be they in memory or not. -/
def volume (st : Mount) : Volume where
  bytes x := (st.opened x).data.contents st.store.disk
  isDir x := (st.opened x).data.isDir

variable {vol : Volume} {inode : Inode} {p : DirEntry → Bool}

section Scan

variable (hdir : st.inodes dir = some inode)
  (hcovered : inode.data.Covered st.store.disk st.store.size)
  (hbytes : vol.bytes dir = inode.data.contents st.store.disk)

include hdir hcovered hbytes

theorem readInode_eq (size offset : Nat) :
    readInode dir size offset st = .ok (vol.inodeReadAt dir size offset) st := by
  rw [readInode, bind_of_ok (inodeAt_of_some hdir), onDisk_of_ok (hcovered.inodeReadAt size offset),
    Volume.inodeReadAt, hbytes]

/-- The loops read the contents of the directory, and there are rounds enough for them. -/
theorem scanLoop_eq {rounds ofs : Nat} (hpos : 0 < rounds)
    (hrounds : (vol.bytes dir).length < ofs + rounds) :
    scanLoop dir p rounds e ofs st = .ok (vol.scan dir p rounds e ofs) st := by
  induction rounds generalizing e ofs with
  | zero => cases hpos
  | succ rounds ih =>
    rw [scanLoop, bind_of_ok (readInode_eq hdir hcovered hbytes _ _), Volume.scan]
    by_cases hfull : (vol.inodeReadAt dir entrySize ofs).length = entrySize
    · have hle : ofs + entrySize ≤ (vol.bytes dir).length := by
        rw [Volume.inodeReadAt, List.length_take, List.length_drop] at hfull
        unfold entrySize at hfull ⊢
        omega
      unfold entrySize at hle
      simp only [if_pos hfull]
      split_ifs
      · rfl
      · exact ih (by omega) (by unfold entrySize; omega)
    · simp only [if_neg hfull]
      rfl

theorem scanDir_eq (ofs : Nat) : scanDir dir p e ofs st = .ok (vol.scanFrom dir p e ofs) st := by
  have hlength : inode.data.length.toInt.toNat = (vol.bytes dir).length := by
    rw [hbytes, length_contents hcovered]
  rw [scanDir, bind_of_ok (inodeAt_of_some hdir), hlength, Volume.scanFrom]
  exact scanLoop_eq hdir hcovered hbytes (Nat.succ_pos _) (by omega)

theorem lookup_eq : lookup dir name st = .ok (vol.lookup dir name) st := by
  rw [lookup, bind_of_ok (scanDir_eq hdir hcovered hbytes _)]
  rfl

end Scan

/-- The offset at which a loop over the entries stops: that of an entry, or the first one at which no
entry is left. -/
theorem scan_offset {rounds ofs : Nat} (hpos : 0 < rounds)
    (hrounds : (vol.bytes dir).length < ofs + rounds) (hofs : ofs ≤ (vol.bytes dir).length) :
    let r := vol.scan dir p rounds e ofs
    r.2.2 ≤ (vol.bytes dir).length ∧ ofs ≤ r.2.2 ∧ entrySize ∣ r.2.2 - ofs := by
  induction rounds generalizing e ofs with
  | zero => cases hpos
  | succ rounds ih =>
    rw [Volume.scan]
    have hlength : (vol.inodeReadAt dir entrySize ofs).length =
        min entrySize ((vol.bytes dir).length - ofs) := by
      rw [Volume.inodeReadAt, List.length_take, List.length_drop]
    by_cases hfull : (vol.inodeReadAt dir entrySize ofs).length = entrySize
    · have hle : ofs + entrySize ≤ (vol.bytes dir).length := by
        unfold entrySize at hfull hlength ⊢
        omega
      simp only [if_pos hfull]
      by_cases hp : p (e.refill (vol.inodeReadAt dir entrySize ofs)) = true
      · simp only [if_pos hp]
        exact ⟨hofs, Nat.le_refl _, by simp⟩
      · have hrest := @ih (e.refill (vol.inodeReadAt dir entrySize ofs)) (ofs + entrySize)
          (by unfold entrySize at hle; omega) (by unfold entrySize; omega) hle
        simp only [if_neg hp]
        obtain ⟨hend, hge, k, hk⟩ := hrest
        exact ⟨hend, by omega, k + 1, by unfold entrySize at hk hge ⊢; omega⟩
    · simp only [if_neg hfull]
      exact ⟨hofs, Nat.le_refl _, by simp⟩

/-- Where the search for a slot ends within the directory there is a slot, and else it has come to the
end of the last entry. -/
theorem scanFrom_offset (vol : Volume) (dir : Sector) (p : DirEntry → Bool) (e : DirEntry) :
    let ofs := (vol.scanFrom dir p e 0).2.2
    ofs + entrySize ≤ (vol.bytes dir).length ∨
      ofs = (vol.bytes dir).length / entrySize * entrySize := by
  obtain ⟨hend, -, hdvd⟩ := @scan_offset dir e vol p ((vol.bytes dir).length + 1) 0 (Nat.succ_pos _)
    (by omega) (Nat.zero_le _)
  rw [Nat.sub_zero] at hdvd
  obtain ⟨k, hk⟩ := hdvd
  dsimp only [Volume.scanFrom]
  rw [hk] at hend ⊢
  unfold entrySize at hend ⊢
  by_cases hin : 20 * k + 20 ≤ (vol.bytes dir).length
  · exact .inl hin
  · right
    omega

end CSE130.Filesys.Mount
