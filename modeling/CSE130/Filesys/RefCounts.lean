import CSE130.Filesys.OpenFiles
import CSE130.Library.Run

/-!
# Reference counts of inodes

`refs` are the references that are held to inodes, by open files and directories and by local variables.
Every operation takes and gives back the references that belong to it, except for `dir_remove` of a
directory and `filesys_open` of a removed inode.
-/

namespace CSE130.Filesys

open CSE130.Library DirEntry

/-- The count of every inode is that of the references to it, and inodes without references are freed. -/
structure Counted (st : OpenInodes) (refs : List Nat) : Prop where
  count : ∀ p inode, st.inodes p = some inode → inode.openCnt = refs.count p
  held : ∀ p, p ∈ refs ↔ (st.inodes p).isSome = true
  listed : ∀ p, p ∈ st.openInodes ↔ (st.inodes p).isSome = true
  nodup : st.openInodes.Nodup
  sectors : ∀ p q i j, st.inodes p = some i → st.inodes q = some j → i.sector = j.sector → p = q
  fresh : ∀ p, st.next ≤ p → st.inodes p = none

/-- The inodes that are there before and after are the same ones up to their counts, and new ones are not
removed. -/
structure Agrees (st st' : OpenInodes) : Prop where
  vol : st'.vol = st.vol
  next : st.next ≤ st'.next
  old : ∀ q i i', st.inodes q = some i → st'.inodes q = some i' →
    i'.sector = i.sector ∧ i'.removed = i.removed
  new : ∀ q i', st.inodes q = none → st'.inodes q = some i' → st.next ≤ q ∧ i'.removed = false

/-- The inode of a sector has been removed but is still open. -/
def Removed (st : OpenInodes) (s : Sector) : Prop :=
  ∃ p inode, st.inodes p = some inode ∧ inode.sector = s ∧ inode.removed = true

variable {st st' st'' : OpenInodes} {refs refs' : List Nat} {p q : Nat} {inode inode' : InodeRef}
  {s : Sector} {name : List UInt8} {tokens : List (List UInt8)} {cwd : Option Nat}

theorem Agrees.refl (st : OpenInodes) : Agrees st st := by
  refine ⟨rfl, Nat.le_refl _, ?_, ?_⟩
  · intro q i i' hi hi'
    rw [hi] at hi'
    cases hi'
    exact ⟨rfl, rfl⟩
  · intro q i' hnone hi'
    rw [hnone] at hi'
    cases hi'

theorem Counted.lt (h : Counted st refs) (hp : st.inodes p = some inode) : p < st.next := by
  by_contra hle
  rw [h.fresh p (Nat.le_of_not_lt hle)] at hp
  cases hp

theorem Agrees.trans (h : Counted st refs) (h₁ : Agrees st st') (h₂ : Agrees st' st'') :
    Agrees st st'' := by
  refine ⟨h₂.vol.trans h₁.vol, Nat.le_trans h₁.next h₂.next, ?_, ?_⟩
  · intro q i i'' hi hi''
    cases hmid : st'.inodes q with
    | none =>
      have hlt := h.lt hi
      have hle := (h₂.new q i'' hmid hi'').1
      have hnext := h₁.next
      omega
    | some i' =>
      obtain ⟨hs₁, hr₁⟩ := h₁.old q i i' hi hmid
      obtain ⟨hs₂, hr₂⟩ := h₂.old q i' i'' hmid hi''
      exact ⟨hs₂.trans hs₁, hr₂.trans hr₁⟩
  · intro q i'' hnone hi''
    cases hmid : st'.inodes q with
    | none =>
      obtain ⟨hle, hr⟩ := h₂.new q i'' hmid hi''
      exact ⟨Nat.le_trans h₁.next hle, hr⟩
    | some i' =>
      obtain ⟨hle, hr₁⟩ := h₁.new q i' hnone hmid
      obtain ⟨-, hr₂⟩ := h₂.old q i' i'' hmid hi''
      exact ⟨hle, hr₂.trans hr₁⟩

theorem Counted.perm (h : Counted st refs) (hperm : refs.Perm refs') : Counted st refs' :=
  ⟨fun p inode hp => (h.count p inode hp).trans (hperm.count_eq p),
    fun p => hperm.mem_iff.symm.trans (h.held p), h.listed, h.nodup, h.sectors, h.fresh⟩

theorem Counted.inodeAt (h : Counted st refs) (hp : p ∈ refs) :
    ∃ inode, st.inodes p = some inode ∧ st.inodeAt p = .ok inode := by
  obtain ⟨inode, hinode⟩ := Option.isSome_iff_exists.mp ((h.held p).mp hp)
  refine ⟨inode, hinode, ?_⟩
  rw [OpenInodes.inodeAt, hinode]

theorem Counted.inodeAt_error (h : Counted st refs) (hp : p ∉ refs) :
    st.inodeAt p = .error (.inode p) := by
  have hnone : st.inodes p = none := by
    rw [← Option.not_isSome_iff_eq_none, ← h.held]
    exact hp
  rw [OpenInodes.inodeAt, hnone]

/-! ## Single steps -/

/-- An inode that is there changes, but not its sector. -/
theorem Counted.set (h : Counted st refs) (hp : st.inodes p = some inode)
    (hsector : inode'.sector = inode.sector) (hcount : inode'.openCnt = refs'.count p)
    (hmem : p ∈ refs') (hothers : ∀ q, q ≠ p → refs'.count q = refs.count q) :
    Counted (st.setInode p (some inode')) refs' := by
  have hsome : ∀ q, ((st.setInode p (some inode')).inodes q).isSome = (st.inodes q).isSome := by
    intro q
    by_cases hq : q = p
    · subst hq
      rw [OpenInodes.setInode_self, hp]
      rfl
    · rw [OpenInodes.setInode_of_ne hq]
  have hold : ∀ q j, (st.setInode p (some inode')).inodes q = some j →
      ∃ i, st.inodes q = some i ∧ j.sector = i.sector := by
    intro q j hj
    by_cases hq : q = p
    · subst hq
      rw [OpenInodes.setInode_self] at hj
      cases hj
      exact ⟨inode, hp, hsector⟩
    · rw [OpenInodes.setInode_of_ne hq] at hj
      exact ⟨j, hj, rfl⟩
  refine ⟨?_, ?_, ?_, h.nodup, ?_, ?_⟩
  · intro q j hj
    by_cases hq : q = p
    · subst hq
      rw [OpenInodes.setInode_self] at hj
      cases hj
      exact hcount
    · rw [OpenInodes.setInode_of_ne hq] at hj
      rw [hothers q hq]
      exact h.count q j hj
  · intro q
    rw [hsome, ← h.held]
    by_cases hq : q = p
    · subst hq
      have hin : q ∈ refs := (h.held q).mpr (by rw [hp]; rfl)
      exact iff_of_true hmem hin
    · rw [← List.count_pos_iff, hothers q hq, List.count_pos_iff]
  · intro q
    rw [hsome]
    exact h.listed q
  · intro q r i j hi hj heq
    obtain ⟨i₀, hi₀, hsi⟩ := hold q i hi
    obtain ⟨j₀, hj₀, hsj⟩ := hold r j hj
    exact h.sectors q r i₀ j₀ hi₀ hj₀ (by rw [← hsi, ← hsj, heq])
  · intro q hq
    rw [← Option.not_isSome_iff_eq_none, hsome, h.fresh q hq]
    exact nofun

theorem Agrees.set (hp : st.inodes p = some inode) (hsector : inode'.sector = inode.sector)
    (hremoved : inode'.removed = inode.removed) : Agrees st (st.setInode p (some inode')) := by
  refine ⟨rfl, Nat.le_refl _, ?_, ?_⟩
  · intro q i i' hi hi'
    by_cases hq : q = p
    · subst hq
      rw [OpenInodes.setInode_self] at hi'
      rw [hp] at hi
      cases hi
      cases hi'
      exact ⟨hsector, hremoved⟩
    · rw [OpenInodes.setInode_of_ne hq, hi] at hi'
      cases hi'
      exact ⟨rfl, rfl⟩
  · intro q i' hnone hi'
    have hq : q ≠ p := by
      intro heq
      rw [heq, hp] at hnone
      cases hnone
    rw [OpenInodes.setInode_of_ne hq, hnone] at hi'
    cases hi'

theorem inodeReopen_ok (h : Counted st refs) (hp : p ∈ refs) :
    ∃ st', st.inodeReopen p = .ok st' ∧ Counted st' (p :: refs) ∧ Agrees st st' := by
  obtain ⟨inode, hinode, hat⟩ := h.inodeAt hp
  refine ⟨st.setInode p (some { inode with openCnt := inode.openCnt + 1 }), ?_,
    h.set hinode rfl ?_ List.mem_cons_self ?_, .set hinode rfl rfl⟩
  · rw [OpenInodes.inodeReopen, hat]
    rfl
  · rw [List.count_cons_self, ← h.count p inode hinode]
  · intro q hq
    rw [List.count_cons_of_ne (Ne.symm hq)]

theorem Counted.newInode (h : Counted st refs)
    (hother : ∀ q i, st.inodes q = some i → i.sector ≠ s) :
    Counted (st.newInode s) (st.next :: refs) := by
  have hnew : st.inodes st.next = none := h.fresh _ (Nat.le_refl _)
  have hself := st.newInode_next s
  have hout : st.next ∉ refs := by
    rw [h.held, hnew]
    exact nofun
  have hsome : ∀ q, ((st.newInode s).inodes q).isSome = true ↔
      q = st.next ∨ (st.inodes q).isSome = true := by
    intro q
    by_cases hq : q = st.next
    · rw [hq, hself]
      exact iff_of_true rfl (.inl rfl)
    · rw [OpenInodes.newInode_of_ne hq]
      simp [hq]
  refine ⟨?_, ?_, ?_, ?_, ?_, ?_⟩
  · intro q i hi
    by_cases hq : q = st.next
    · rw [hq, hself] at hi
      cases hi
      rw [hq, List.count_cons_self, List.count_eq_zero_of_not_mem hout]
    · rw [OpenInodes.newInode_of_ne hq] at hi
      rw [List.count_cons_of_ne (Ne.symm hq)]
      exact h.count q i hi
  · intro q
    rw [hsome, List.mem_cons, h.held]
  · intro q
    rw [hsome, ← h.listed]
    exact List.mem_cons
  · refine List.nodup_cons.mpr ⟨?_, h.nodup⟩
    rw [h.listed, hnew]
    exact nofun
  · intro q r i j hi hj heq
    by_cases hq : q = st.next
    · by_cases hr : r = st.next
      · rw [hq, hr]
      · rw [hq, hself] at hi
        rw [OpenInodes.newInode_of_ne hr] at hj
        cases hi
        exact absurd heq.symm (hother r j hj)
    · by_cases hr : r = st.next
      · rw [hr, hself] at hj
        rw [OpenInodes.newInode_of_ne hq] at hi
        cases hj
        exact absurd heq (hother q i hi)
      · rw [OpenInodes.newInode_of_ne hq] at hi
        rw [OpenInodes.newInode_of_ne hr] at hj
        exact h.sectors q r i j hi hj heq
  · intro q hq
    rw [OpenInodes.newInode_of_ne (Nat.ne_of_gt hq)]
    exact h.fresh q (Nat.le_of_succ_le hq)

theorem Agrees.newInode (h : Counted st refs) (s : Sector) : Agrees st (st.newInode s) := by
  refine ⟨rfl, Nat.le_succ _, ?_, ?_⟩
  · intro q i i' hi hi'
    rw [OpenInodes.newInode_of_ne (Nat.ne_of_lt (h.lt hi)), hi] at hi'
    cases hi'
    exact ⟨rfl, rfl⟩
  · intro q i' hnone hi'
    by_cases hq : q = st.next
    · rw [hq, st.newInode_next] at hi'
      cases hi'
      exact ⟨Nat.le_of_eq hq.symm, rfl⟩
    · rw [OpenInodes.newInode_of_ne hq, hnone] at hi'
      cases hi'

/-- `inode_open` gives a reference to the inode of the sector. -/
theorem inodeOpen_ok (h : Counted st refs) (s : Sector) :
    ∃ p st' inode, st.inodeOpen s = .ok (p, st') ∧ Counted st' (p :: refs) ∧ Agrees st st' ∧
      st'.inodes p = some inode ∧ inode.sector = s := by
  cases hfind : st.findInode s with
  | some p =>
    have hany := List.find?_some hfind
    rw [Option.any_eq_true] at hany
    obtain ⟨inode, hinode, hsector⟩ := hany
    have hmem : p ∈ refs := by
      rw [h.held, hinode]
      rfl
    obtain ⟨st', hrun, hcounted, hagrees⟩ := inodeReopen_ok h hmem
    obtain ⟨inode', hinode', -⟩ := hcounted.inodeAt List.mem_cons_self
    refine ⟨p, st', inode', ?_, hcounted, hagrees, hinode', ?_⟩
    · rw [OpenInodes.inodeOpen, hfind]
      dsimp only
      rw [hrun]
      rfl
    · rw [(hagrees.old p inode inode' hinode hinode').1]
      simpa using hsector
  | none =>
    have hother : ∀ q i, st.inodes q = some i → i.sector ≠ s := by
      intro q i hi heq
      have hmem : q ∈ st.openInodes := by
        rw [h.listed, hi]
        rfl
      have hnone := List.find?_eq_none.mp hfind q hmem
      simp [hi, heq] at hnone
    refine ⟨st.next, st.newInode s, { sector := s, openCnt := 1, removed := false }, ?_,
      h.newInode hother, .newInode h s, st.newInode_next s, rfl⟩
    rw [OpenInodes.inodeOpen, hfind]
    rfl

/-- `inode_close` gives up a reference. -/
theorem inodeClose_ok (h : Counted st refs) (hp : p ∈ refs) :
    ∃ st', st.inodeClose p = .ok st' ∧ Counted st' (refs.erase p) ∧ Agrees st st' := by
  obtain ⟨inode, hinode, hat⟩ := h.inodeAt hp
  have hcount := h.count p inode hinode
  have hpos : 0 < refs.count p := List.count_pos_iff.mpr hp
  have hothers : ∀ q, q ≠ p → (refs.erase p).count q = refs.count q :=
    fun q hq => List.count_erase_of_ne hq
  have hself : (refs.erase p).count p = refs.count p - 1 := List.count_erase_self
  by_cases hlast : inode.openCnt - 1 = 0
  · have hout : p ∉ refs.erase p := by
      rw [← List.count_pos_iff, hself]
      omega
    have hnone : (st.setInode p none).inodes p = none := st.setInode_self p none
    have hsame : ∀ q, q ≠ p → (st.setInode p none).inodes q = st.inodes q :=
      fun q hq => OpenInodes.setInode_of_ne hq
    have hold : ∀ q i, (st.setInode p none).inodes q = some i → q ≠ p ∧ st.inodes q = some i := by
      intro q i hi
      by_cases hq : q = p
      · rw [hq, hnone] at hi
        cases hi
      · rw [hsame q hq] at hi
        exact ⟨hq, hi⟩
    refine ⟨{ st.setInode p none with openInodes := st.openInodes.erase p }, ?_,
      ⟨?_, ?_, ?_, h.nodup.erase p, ?_, ?_⟩, ⟨rfl, Nat.le_refl _, ?_, ?_⟩⟩
    · rw [OpenInodes.inodeClose, hat, ok_bind, if_pos hlast]
      rfl
    · intro q i hi
      obtain ⟨hq, hi⟩ := hold q i hi
      rw [hothers q hq]
      exact h.count q i hi
    · intro q
      by_cases hq : q = p
      · rw [hq, hnone]
        exact iff_of_false hout nofun
      · rw [hsame q hq, ← h.held, List.mem_erase_of_ne hq]
    · intro q
      by_cases hq : q = p
      · rw [hq, hnone]
        exact iff_of_false h.nodup.not_mem_erase nofun
      · rw [hsame q hq, ← h.listed, List.mem_erase_of_ne hq]
    · intro q r i j hi hj heq
      exact h.sectors q r i j (hold q i hi).2 (hold r j hj).2 heq
    · intro q hq
      by_cases hqp : q = p
      · rw [hqp]
        exact hnone
      · rw [hsame q hqp]
        exact h.fresh q hq
    · intro q i i' hi hi'
      rw [(hold q i' hi').2] at hi
      cases hi
      exact ⟨rfl, rfl⟩
    · intro q i' hn hi'
      rw [(hold q i' hi').2] at hn
      cases hn
  · refine ⟨st.setInode p (some { inode with openCnt := inode.openCnt - 1 }), ?_,
      h.set hinode rfl ?_ ?_ hothers, .set hinode rfl rfl⟩
    · rw [OpenInodes.inodeClose, hat, ok_bind, if_neg hlast]
      rfl
    · rw [hself, ← hcount]
    · rw [← List.count_pos_iff, hself]
      omega

/-- Only an inode that is held can be closed. -/
theorem inodeClose_eq_ok (h : Counted st refs) (hrun : st.inodeClose p = .ok st') :
    p ∈ refs ∧ Counted st' (refs.erase p) := by
  by_cases hp : p ∈ refs
  · obtain ⟨st₁, hok, hcounted, -⟩ := inodeClose_ok h hp
    rw [hok] at hrun
    cases hrun
    exact ⟨hp, hcounted⟩
  · rw [OpenInodes.inodeClose, h.inodeAt_error hp] at hrun
    cases hrun

theorem inodeRemove_ok (h : Counted st refs) (hp : p ∈ refs) :
    ∃ st', st.inodeRemove p = .ok st' ∧ Counted st' refs := by
  obtain ⟨inode, hinode, hat⟩ := h.inodeAt hp
  refine ⟨st.setInode p (some { inode with removed := true }), ?_,
    h.set hinode rfl (h.count p inode hinode) hp fun _ _ => rfl⟩
  rw [OpenInodes.inodeRemove, hat]
  rfl

theorem Counted.withVol (h : Counted st refs) (vol : Volume) : Counted { st with vol := vol } refs :=
  ⟨h.count, h.held, h.listed, h.nodup, h.sectors, h.fresh⟩

end CSE130.Filesys
