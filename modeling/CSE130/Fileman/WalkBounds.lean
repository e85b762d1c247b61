import CSE130.Fileman.Tree
import CSE130.Library.Fuel

/-!
# Which memory the walks of a directory use

`scandir` counts the entries and puts nothing behind them. `file_rec` and `file_rec2` leave their
loops at a `NULL` behind the last entry, so that each of them reads an entry too many in every
directory. Where the element that is read happens to be there and to be `NULL`, the limits that are
left are those of the path and of the array `done`.
-/

namespace CSE130.Fileman

open Library

namespace Bounds

/-- The loop of `file_rec` (`fileman.c:215-219`) over the entries from `ind` on. `room` tells that
the entry behind the last one may be read, and is `NULL`. -/
def entriesLoop (room : Bool) (call : Bytes → Except Violation Bytes) :
    List Bytes → Except Violation Bytes
  | [] => do
    check (room = true) Violation.entry
    return []
  | dName :: rest => do
    let out ← call dName
    let out' ← entriesLoop room call rest
    return out ++ out'

/-- `file_rec` (`fileman.c:203-221`): what it writes, where its reads of `dir_ls` are checked. -/
def fileRec (w : World) (room : Bool) : Nat → Bytes → Nat → Bytes → Except Violation Bytes
  | 0, _, _, _ => throw .fuel
  | fuel + 1, dname, deep, prev => do
    let thiscp := if deep = 0 then prev ++ dname else prev ++ slash :: dname
    check (thiscp.length < 4096) Violation.path
    match w.scandir thiscp with
    | none => return line deep dname
    | some dirLs =>
      let call dName := fileRec w room fuel dName (deep + 1) thiscp
      let below ← entriesLoop room call (dirLs.drop 2)
      return line deep dname ++ below

/-- `fileman_dir` (`fileman.c:222-227`). -/
def filemanDir (w : World) (room : Bool) (fuel : Nat) (dname : Bytes) : Except Violation Bytes :=
  fileRec w room fuel dname 0 []

end Bounds

/-! ## Loops whose calls return -/

section Loops

variable {room : Bool} {deep : Nat} {l : List Bytes} {done : Flags} {r : Bytes × Flags}
  {call call' : Bytes → Nat → Flags → Except Violation (Bytes × Flags)}
  {call₁ call₁' : Bytes → Except Violation Bytes}

/-- Without room no loop comes to its end. -/
theorem Bounds.entriesLoop_ne_ok {out : Bytes} : Bounds.entriesLoop false call₁ l ≠ .ok out := by
  induction l generalizing out with
  | nil =>
    intro h
    cases h
  | cons name l ih =>
    intro h
    obtain ⟨out1, -, h⟩ := bind_eq_ok.mp h
    obtain ⟨out2, hrest, -⟩ := bind_eq_ok.mp h
    exact ih hrest

theorem entriesLoop_ne_ok : entriesLoop false call deep l done ≠ .ok r := by
  induction l generalizing done r with
  | nil =>
    intro h
    cases h
  | cons name l ih =>
    intro h
    obtain ⟨-, -, h⟩ := bind_eq_ok.mp h
    obtain ⟨-, -, h⟩ := bind_eq_ok.mp h
    obtain ⟨r1, -, h⟩ := bind_eq_ok.mp h
    obtain ⟨r2, hrest, -⟩ := bind_eq_ok.mp h
    exact ih hrest

/-- A loop that comes to its end has called for every entry, with an element of the array that is
there. -/
theorem calls_of_entriesLoop_ok (h : entriesLoop room call deep l done = .ok r) :
    ∀ name ∈ l, deep < 1000 ∧ ∃ last done' r', call name last done' = .ok r' := by
  induction l generalizing done r with
  | nil => simp
  | cons n l ih =>
    obtain ⟨-, -, h⟩ := bind_eq_ok.mp h
    obtain ⟨_, hdeep, h⟩ := bind_eq_ok.mp h
    obtain ⟨r1, hcall, h⟩ := bind_eq_ok.mp h
    obtain ⟨r2, hrest, -⟩ := bind_eq_ok.mp h
    intro name hname
    rcases List.mem_cons.mp hname with rfl | hname
    · exact ⟨check_eq_ok.mp hdeep, _, _, r1, hcall⟩
    · exact ih hrest name hname

theorem Bounds.entriesLoop_of_calls (h : ∀ name ∈ l, ∃ out, call₁ name = .ok out) :
    ∃ out, Bounds.entriesLoop true call₁ l = .ok out := by
  induction l with
  | nil => exact ⟨[], rfl⟩
  | cons name l ih =>
    obtain ⟨out1, hcall⟩ := h name List.mem_cons_self
    obtain ⟨out2, hrest⟩ := ih fun n hn => h n (List.mem_cons_of_mem _ hn)
    exact ⟨out1 ++ out2, by rw [entriesLoop, hcall, ok_bind, hrest, ok_bind]; rfl⟩

/-! ## Loops whose calls fail -/

theorem Bounds.call_of_entriesLoop_fuel (h : Bounds.entriesLoop room call₁ l = .error .fuel) :
    ∃ name ∈ l, call₁ name = .error .fuel := by
  induction l with
  | nil => cases room <;> cases h
  | cons name l ih =>
    rw [entriesLoop] at h
    cases hcall : call₁ name with
    | error v =>
      rw [hcall] at h
      cases h
      exact ⟨name, List.mem_cons_self, hcall⟩
    | ok out =>
      rw [hcall, ok_bind] at h
      cases hrest : entriesLoop room call₁ l with
      | ok out' =>
        rw [hrest] at h
        cases h
      | error v =>
        rw [hrest] at h
        cases h
        obtain ⟨n, hn, hfuel⟩ := ih hrest
        exact ⟨n, List.mem_cons_of_mem _ hn, hfuel⟩

theorem call_of_entriesLoop_fuel (h : entriesLoop room call deep l done = .error .fuel) :
    ∃ name ∈ l, ∃ last done', call name last done' = .error .fuel := by
  induction l generalizing done with
  | nil => cases room <;> cases h
  | cons name l ih =>
    rw [entriesLoop] at h
    by_cases hroom : room = true ∨ l ≠ []
    swap
    · rw [check, if_neg hroom] at h
      cases h
    rw [check_bind hroom] at h
    by_cases hdeep : deep < 1000
    swap
    · rw [check, if_neg hdeep] at h
      cases h
    rw [check_bind hdeep] at h
    dsimp only at h
    generalize hlast : (if l = [] then 1 else 0 : Nat) = last at h
    cases hcall : call name last (Function.update done deep last) with
    | error v =>
      rw [hcall] at h
      cases h
      exact ⟨name, List.mem_cons_self, _, _, hcall⟩
    | ok r1 =>
      rw [hcall, ok_bind] at h
      cases hrest : entriesLoop room call deep l r1.2 with
      | ok r2 =>
        rw [hrest] at h
        cases h
      | error v =>
        rw [hrest] at h
        cases h
        obtain ⟨n, hn, hfuel⟩ := ih hrest
        exact ⟨n, List.mem_cons_of_mem _ hn, hfuel⟩

/-! ## Loops with more fuel -/

theorem Bounds.entriesLoop_approx (h : ∀ name, Approx Violation.fuel (call₁ name) (call₁' name)) :
    Approx Violation.fuel (Bounds.entriesLoop room call₁ l) (Bounds.entriesLoop room call₁' l) := by
  induction l with
  | nil => exact .refl _
  | cons name l ih => exact (h name).bind fun _ => ih.bind fun _ => .refl _

theorem entriesLoop_approx
    (h : ∀ name last done, Approx Violation.fuel (call name last done) (call' name last done)) :
    Approx Violation.fuel (entriesLoop room call deep l done)
      (entriesLoop room call' deep l done) := by
  induction l generalizing done with
  | nil => exact .refl _
  | cons name l ih =>
    refine (Approx.refl _).bind fun _ => (Approx.refl _).bind fun _ => ?_
    exact (h name _ _).bind fun r => ih.bind fun _ => .refl _

end Loops

/-! ## Both walks -/

section Walks

variable {w : World} {room : Bool} {fuel deep capType : Nat} {dname prev : Bytes} {done : Flags}

theorem Bounds.fileRec_succ : Bounds.fileRec w room (fuel + 1) dname deep prev = (do
    check ((thiscp dname deep prev).length < 4096) Violation.path
    match w.scandir (thiscp dname deep prev) with
    | none => return line deep dname
    | some dirLs =>
      let below ← entriesLoop room (fun dName =>
        fileRec w room fuel dName (deep + 1) (thiscp dname deep prev)) (dirLs.drop 2)
      return line deep dname ++ below) :=
  rfl

theorem Bounds.fileRec_approx (w : World) (room : Bool) (fuel : Nat) (dname : Bytes) (deep : Nat)
    (prev : Bytes) : Approx Violation.fuel (fileRec w room fuel dname deep prev)
      (fileRec w room (fuel + 1) dname deep prev) := by
  induction fuel generalizing dname deep prev with
  | zero => exact .error _
  | succ fuel ih =>
    rw [fileRec_succ, fileRec_succ]
    refine (Approx.refl _).bind fun _ => ?_
    cases w.scandir (thiscp dname deep prev) with
    | none => exact .refl _
    | some dirLs =>
      exact (entriesLoop_approx fun name => ih name _ _).bind fun _ => .refl _

theorem fileRec2_approx (w : World) (room : Bool) (fuel : Nat) (dname : Bytes) (deep : Nat)
    (prev : Bytes) (capType : Nat) (done : Flags) :
    Approx Violation.fuel (fileRec2 w room fuel dname deep prev capType done)
      (fileRec2 w room (fuel + 1) dname deep prev capType done) := by
  induction fuel generalizing dname deep prev capType done with
  | zero => exact .error _
  | succ fuel ih =>
    rw [fileRec2_succ, fileRec2_succ]
    refine (Approx.refl _).bind fun _ => (Approx.refl _).bind fun _ => ?_
    cases w.scandir (thiscp dname deep prev) with
    | none => exact .refl _
    | some dirLs =>
      exact (entriesLoop_approx fun name last done => ih name _ _ last done).bind fun _ => .refl _

theorem length_thiscp_lt (name : Bytes) :
    prev.length < (thiscp name (deep + 1) prev).length := by
  rw [length_thiscp_succ]
  omega

/-- Every call has a longer path than the one that makes it, so that the walk comes to an end. -/
theorem Bounds.fileRec_ne_fuel (hpos : 0 < fuel)
    (hfuel : 4097 ≤ fuel + (thiscp dname deep prev).length) :
    fileRec w room fuel dname deep prev ≠ .error .fuel := by
  induction fuel generalizing dname deep prev with
  | zero => omega
  | succ fuel ih =>
    intro h
    rw [fileRec_succ] at h
    by_cases hlength : (thiscp dname deep prev).length < 4096
    swap
    · rw [check, if_neg hlength] at h
      cases h
    rw [check_bind hlength] at h
    cases hscan : w.scandir (thiscp dname deep prev) with
    | none =>
      rw [hscan] at h
      cases h
    | some dirLs =>
      simp only [hscan] at h
      generalize hloop : entriesLoop room _ (dirLs.drop 2) = r at h
      cases r with
      | ok below => cases h
      | error v =>
        cases h
        obtain ⟨name, -, hcall⟩ := call_of_entriesLoop_fuel hloop
        have := @length_thiscp_lt deep (thiscp dname deep prev) name
        exact ih (by omega) (by omega) hcall

theorem fileRec2_ne_fuel (hpos : 0 < fuel)
    (hfuel : 4097 ≤ fuel + (thiscp dname deep prev).length) :
    fileRec2 w room fuel dname deep prev capType done ≠ .error .fuel := by
  induction fuel generalizing dname deep prev capType done with
  | zero => omega
  | succ fuel ih =>
    intro h
    rw [fileRec2_succ] at h
    by_cases hindex : deep - 1 ≤ 1000
    swap
    · rw [check, if_neg hindex] at h
      cases h
    rw [check_bind hindex] at h
    by_cases hlength : (thiscp dname deep prev).length < 4096
    swap
    · rw [check, if_neg hlength] at h
      cases h
    rw [check_bind hlength] at h
    cases hscan : w.scandir (thiscp dname deep prev) with
    | none =>
      rw [hscan] at h
      cases h
    | some dirLs =>
      simp only [hscan] at h
      generalize hloop : entriesLoop room _ deep (dirLs.drop 2) done = r at h
      cases r with
      | ok below => cases h
      | error v =>
        cases h
        obtain ⟨name, -, last, done', hcall⟩ := call_of_entriesLoop_fuel hloop
        have := @length_thiscp_lt deep (thiscp dname deep prev) name
        exact ih (by omega) (by omega) hcall

/-- With room the walk is the one of which the listing has been proved. -/
theorem Bounds.entriesLoop_eq_ok_iff {call : Bytes → Except Violation Bytes}
    {call' : Bytes → Except Abort Bytes} {l : List Bytes} {out : Bytes}
    (h : ∀ name out, call name = .ok out ↔ call' name = .ok out) :
    entriesLoop true call l = .ok out ↔ ∃ outs, l.mapM call' = .ok outs ∧ outs.flatten = out := by
  induction l generalizing out with
  | nil =>
    constructor
    · intro hloop
      cases hloop
      exact ⟨[], rfl, rfl⟩
    · rintro ⟨outs, hmap, rfl⟩
      cases hmap
      rfl
  | cons name l ih =>
    rw [entriesLoop, List.mapM_cons]
    simp only [bind_eq_ok, pure_eq_ok]
    constructor
    · rintro ⟨out1, hcall, out2, hrest, rfl⟩
      obtain ⟨outs, hmap, rfl⟩ := ih.mp hrest
      exact ⟨out1 :: outs, ⟨out1, (h _ _).mp hcall, outs, hmap, rfl⟩, rfl⟩
    · rintro ⟨outs, ⟨out1, hcall, outs', hmap, rfl⟩, rfl⟩
      exact ⟨out1, (h _ _).mpr hcall, outs'.flatten, ih.mpr ⟨outs', hmap, rfl⟩, rfl⟩

theorem Bounds.fileRec_eq_ok_iff {out : Bytes} :
    fileRec w true fuel dname deep prev = .ok out ↔
      Fileman.fileRec w fuel dname deep prev = .ok out := by
  induction fuel generalizing dname deep prev out with
  | zero => exact iff_of_false (fun h => by cases h) fun h => by cases h
  | succ fuel ih =>
    rw [fileRec_succ, Fileman.fileRec, ← thiscp]
    simp only [bind_eq_ok, check_eq_ok]
    refine exists_congr fun _ => and_congr_right fun _ => ?_
    cases w.scandir (thiscp dname deep prev) with
    | none => simp only [pure_eq_ok]
    | some dirLs =>
      simp only [bind_eq_ok, pure_eq_ok, entriesLoop_eq_ok_iff fun name out => ih]
      constructor
      · rintro ⟨below, ⟨outs, hmap, rfl⟩, rfl⟩
        exact ⟨outs, hmap, rfl⟩
      · rintro ⟨outs, hmap, rfl⟩
        exact ⟨outs.flatten, ⟨outs, hmap, rfl⟩, rfl⟩

/-- Where `file_rec2` returns, `file_rec` does. -/
theorem Bounds.fileRec_of_fileRec2 {r : Bytes × Flags}
    (h : fileRec2 w true fuel dname deep prev capType done = .ok r) :
    ∃ out, fileRec w true fuel dname deep prev = .ok out := by
  induction fuel generalizing dname deep prev capType done r with
  | zero => cases h
  | succ fuel ih =>
    rw [fileRec2_succ] at h
    obtain ⟨-, -, h⟩ := bind_eq_ok.mp h
    obtain ⟨_, hlength, h⟩ := bind_eq_ok.mp h
    rw [fileRec_succ, check_bind (check_eq_ok.mp hlength)]
    cases hscan : w.scandir (thiscp dname deep prev) with
    | none => exact ⟨_, rfl⟩
    | some dirLs =>
      rw [hscan] at h
      obtain ⟨r1, hloop, -⟩ := bind_eq_ok.mp h
      have hcalls : ∀ name ∈ dirLs.drop 2,
          ∃ out, fileRec w true fuel name (deep + 1) (thiscp dname deep prev) = .ok out := by
        intro name hname
        obtain ⟨-, last, done', r2, hcall⟩ := calls_of_entriesLoop_ok hloop name hname
        exact ih hcall
      obtain ⟨below, hbelow⟩ := entriesLoop_of_calls hcalls
      simp only [hbelow, ok_bind]
      exact ⟨_, rfl⟩

theorem Entries.mem_nodes_cases {entries : Entries} {pre q : Pos} (h : q ∈ entries.nodes pre) :
    (∃ name ∈ entries.names, q = name :: pre) ∨
      ∃ name sub, (name, sub) ∈ entries.dirs ∧ q ∈ sub.nodes (name :: pre) := by
  induction entries with
  | nil => cases h
  | file n rest ih =>
    rcases List.mem_cons.mp h with rfl | h
    · exact Or.inl ⟨n, List.mem_cons_self, rfl⟩
    · refine (ih h).imp_left ?_
      rintro ⟨name, hname, rfl⟩
      exact ⟨name, List.mem_cons_of_mem _ hname, rfl⟩
  | dir n s rest _ ih =>
    rcases List.mem_cons.mp h with rfl | h
    · exact Or.inl ⟨n, List.mem_cons_self, rfl⟩
    · rcases List.mem_append.mp h with h | h
      · exact Or.inr ⟨n, s, List.mem_cons_self, h⟩
      · refine (ih h).imp ?_ ?_
        · rintro ⟨name, hname, rfl⟩
          exact ⟨name, List.mem_cons_of_mem _ hname, rfl⟩
        · rintro ⟨name, sub, hsub, hq⟩
          exact ⟨name, sub, List.mem_cons_of_mem _ hsub, hq⟩

/-- A call of `file_rec2` that returns has not met an entry deeper than the array is long. -/
theorem depth_of_fileRec2 {r : Bytes × Flags} {p pre : Pos} {entries : Entries}
    (h : fileRec2 w true fuel dname deep prev capType done = .ok r)
    (hpath : w.resolve (thiscp dname deep prev) = some p)
    (hdir : w.root.dirAt p = some entries)
    (hlist : entries.Listable (thiscp dname deep prev).length) (hpre : pre.length = deep) :
    ∀ q ∈ entries.nodes pre, q.length ≤ 1000 := by
  induction fuel generalizing dname deep prev capType done r p pre entries with
  | zero => cases h
  | succ fuel ih =>
    have hlegal := w.legal.dirAt hdir
    obtain ⟨hnames, hdirs⟩ := Entries.listable_iff.mp hlist
    rw [fileRec2_succ, World.scandir_eq hpath, hdir, Option.map_some] at h
    obtain ⟨-, -, h⟩ := bind_eq_ok.mp h
    obtain ⟨-, -, h⟩ := bind_eq_ok.mp h
    obtain ⟨r1, hloop, -⟩ := bind_eq_ok.mp h
    have hcalls := calls_of_entriesLoop_ok hloop
    rw [alphasort_drop fun name hname => (hnames name hname).1] at hcalls
    intro q hq
    rcases Entries.mem_nodes_cases hq with ⟨name, hname, rfl⟩ | ⟨name, sub, hsub, hq⟩
    · have hdeep := (hcalls name ((List.mem_insertionSort _).mpr hname)).1
      rw [List.length_cons]
      omega
    · have hname := Entries.mem_names_of_mem_dirs hsub
      obtain ⟨-, last, done', r2, hcall⟩ := hcalls name ((List.mem_insertionSort _).mpr hname)
      have hchild : w.resolve (thiscp name (deep + 1) (thiscp dname deep prev)) =
          some (name :: p) := World.resolve_child hpath hdir (hlegal.of_mem_names hname)
      have hbelow : w.root.dirAt (name :: p) = some sub := by
        rw [Entries.dirAt, hdir]
        exact Entries.find_of_mem_dirs hlegal hsub
      have hlist' : sub.Listable (thiscp name (deep + 1) (thiscp dname deep prev)).length := by
        rw [length_thiscp_succ]
        exact hdirs name sub hsub
      exact ih hcall hchild hbelow hlist' (by simp [hpre]) q hq

end Walks

/-! ## The bounds -/

/-- The directory that a path leads to. -/
def World.opendir (w : World) (path : Bytes) : Option Entries :=
  (w.resolve path).bind w.root.dirAt

section InBounds

variable {w : World} {dname : Bytes} {room : Bool} {done : Flags}

/-- A walk that reads and writes within its arrays, however far it comes. -/
def InBounds (run : Nat → Except Violation Bytes) : Prop := Faultless Violation.fuel run

theorem World.scandir_eq_none_iff : w.scandir dname = none ↔ w.opendir dname = none := by
  cases hpath : w.resolve dname with
  | none => simp [World.scandir, World.opendir, hpath, bind]
  | some p => rw [World.scandir_eq hpath, World.opendir, hpath, Option.bind_some, Option.map_eq_none_iff]

theorem filemanDir_inBounds_iff :
    InBounds (fun fuel => Bounds.filemanDir w room fuel dname) ↔
      ∃ fuel out, Bounds.filemanDir w room fuel dname = .ok out :=
  faultless_iff_returns (fun fuel => Bounds.fileRec_approx w room fuel dname 0 [])
    ⟨4097, Bounds.fileRec_ne_fuel (by decide) (by omega)⟩

theorem filemanTree_eq_ok {fuel : Nat} {out : Bytes} :
    filemanTree w room fuel dname done = .ok out ↔
      ∃ r, fileRec2 w room fuel dname 0 [] 0 done = .ok r ∧ r.1 = out := by
  rw [filemanTree]
  simp only [bind_eq_ok, pure_eq_ok]

theorem filemanTree_inBounds_iff :
    InBounds (fun fuel => filemanTree w room fuel dname done) ↔
      ∃ fuel r, fileRec2 w room fuel dname 0 [] 0 done = .ok r := by
  have hends : filemanTree w room 4097 dname done ≠ .error .fuel := by
    intro h
    have hne := @fileRec2_ne_fuel w room 4097 0 0 dname [] done (by decide) (by omega)
    rw [filemanTree] at h
    cases hrun : fileRec2 w room 4097 dname 0 [] 0 done with
    | ok r =>
      rw [hrun] at h
      cases h
    | error v =>
      rw [hrun] at h
      cases h
      exact hne hrun
  refine (faultless_iff_returns (fun fuel => ?_) ⟨4097, hends⟩).trans ?_
  · exact (fileRec2_approx w room fuel dname 0 [] 0 done).bind fun _ => .refl _
  · constructor
    · rintro ⟨fuel, out, h⟩
      obtain ⟨r, hrun, -⟩ := filemanTree_eq_ok.mp h
      exact ⟨fuel, r, hrun⟩
    · rintro ⟨fuel, r, h⟩
      exact ⟨fuel, r.1, filemanTree_eq_ok.mpr ⟨r, h, rfl⟩⟩

theorem filemanDir_of_none (hlength : dname.length < 4096) (h : w.opendir dname = none) :
    Bounds.filemanDir w room 1 dname = .ok (line 0 dname) := by
  have hlength' : (thiscp dname 0 []).length < 4096 := hlength
  have hscan : w.scandir (thiscp dname 0 []) = none := World.scandir_eq_none_iff.mpr h
  rw [Bounds.filemanDir, Bounds.fileRec_succ, check_bind hlength', hscan]
  rfl

theorem fileRec2_of_none (hlength : dname.length < 4096) (h : w.opendir dname = none) :
    fileRec2 w room 1 dname 0 [] 0 done = .ok (dname ++ [newline], done) := by
  have hlength' : (thiscp dname 0 []).length < 4096 := hlength
  have hscan : w.scandir (thiscp dname 0 []) = none := World.scandir_eq_none_iff.mpr h
  rw [fileRec2_succ, check_bind (Nat.zero_le _), check_bind hlength', hscan]
  rfl

/-- Without room a walk returns where there is no directory. -/
theorem filemanDir_returns_iff : (∃ fuel out, Bounds.filemanDir w false fuel dname = .ok out) ↔
    dname.length < 4096 ∧ w.opendir dname = none := by
  constructor
  · rintro ⟨fuel, out, h⟩
    cases fuel with
    | zero => cases h
    | succ fuel =>
      rw [Bounds.filemanDir, Bounds.fileRec_succ] at h
      obtain ⟨_, hlength, h⟩ := bind_eq_ok.mp h
      refine ⟨check_eq_ok.mp hlength, World.scandir_eq_none_iff.mp ?_⟩
      cases hscan : w.scandir dname with
      | none => rfl
      | some dirLs =>
        have hscan' : w.scandir (thiscp dname 0 []) = some dirLs := hscan
        rw [hscan'] at h
        obtain ⟨below, hloop, -⟩ := bind_eq_ok.mp h
        exact absurd hloop Bounds.entriesLoop_ne_ok
  · rintro ⟨hlength, h⟩
    exact ⟨1, _, filemanDir_of_none hlength h⟩

theorem fileRec2_returns_iff : (∃ fuel r, fileRec2 w false fuel dname 0 [] 0 done = .ok r) ↔
    dname.length < 4096 ∧ w.opendir dname = none := by
  constructor
  · rintro ⟨fuel, r, h⟩
    cases fuel with
    | zero => cases h
    | succ fuel =>
      rw [fileRec2_succ] at h
      obtain ⟨-, -, h⟩ := bind_eq_ok.mp h
      obtain ⟨_, hlength, h⟩ := bind_eq_ok.mp h
      refine ⟨check_eq_ok.mp hlength, World.scandir_eq_none_iff.mp ?_⟩
      cases hscan : w.scandir dname with
      | none => rfl
      | some dirLs =>
        have hscan' : w.scandir (thiscp dname 0 []) = some dirLs := hscan
        rw [hscan'] at h
        obtain ⟨below, hloop, -⟩ := bind_eq_ok.mp h
        exact absurd hloop entriesLoop_ne_ok
  · rintro ⟨hlength, h⟩
    exact ⟨1, _, fileRec2_of_none hlength h⟩

/-- With room `file_rec` returns where the names and paths below are in order. -/
theorem filemanDir_room_returns_iff :
    (∃ fuel out, Bounds.filemanDir w true fuel dname = .ok out) ↔
      dname.length < 4096 ∧
        ∀ entries, w.opendir dname = some entries → entries.Listable dname.length := by
  simp only [Bounds.filemanDir, Bounds.fileRec_eq_ok_iff]
  constructor
  · rintro ⟨fuel, out, h⟩
    refine ⟨length_lt_of_ok h, fun entries hentries => ?_⟩
    obtain ⟨p, hpath, hdir⟩ := Option.bind_eq_some_iff.mp hentries
    exact listable_of_ok h hpath hdir
  · rintro ⟨hlength, hlist⟩
    cases hentries : w.opendir dname with
    | none =>
      refine ⟨1, line 0 dname, Bounds.fileRec_eq_ok_iff.mp ?_⟩
      exact filemanDir_of_none hlength hentries
    | some entries =>
      obtain ⟨p, hpath, hdir⟩ := Option.bind_eq_some_iff.mp hentries
      exact ⟨entries.height + 2, _, @fileRec_eq w _ 0 dname [] p [] entries hlength hpath hdir
        (hlist entries hentries) rfl (Nat.le_refl _)⟩

/-- With room `file_rec2` returns where no entry is too deep either. -/
theorem fileRec2_room_returns_iff :
    (∃ fuel r, fileRec2 w true fuel dname 0 [] 0 done = .ok r) ↔
      dname.length < 4096 ∧ ∀ entries, w.opendir dname = some entries →
        entries.Listable dname.length ∧ ∀ q ∈ entries.nodes [], q.length ≤ 1000 := by
  constructor
  · rintro ⟨fuel, r, h⟩
    obtain ⟨out, hrec⟩ := Bounds.fileRec_of_fileRec2 h
    obtain ⟨hlength, hlist⟩ := filemanDir_room_returns_iff.mp ⟨fuel, out, hrec⟩
    refine ⟨hlength, fun entries hentries => ⟨hlist entries hentries, ?_⟩⟩
    obtain ⟨p, hpath, hdir⟩ := Option.bind_eq_some_iff.mp hentries
    exact depth_of_fileRec2 h hpath hdir (hlist entries hentries) rfl
  · rintro ⟨hlength, hall⟩
    cases hentries : w.opendir dname with
    | none => exact ⟨1, _, fileRec2_of_none hlength hentries⟩
    | some entries =>
      obtain ⟨hlist, hdepth⟩ := hall entries hentries
      obtain ⟨p, hpath, hdir⟩ := Option.bind_eq_some_iff.mp hentries
      obtain ⟨done', hrun, -⟩ := @fileRec2_eq w (entries.height + 2) 0 0 dname []
        (dname ++ [newline]) p [] entries entries done hlength hpath hdir rfl hlist hdepth
        (Nat.zero_le _) rfl trivial rfl (Nat.le_refl _)
      exact ⟨_, _, hrun⟩

end InBounds

/-- The walks read and write within their arrays just where there is no directory to walk. Where the
element behind the entries can be read and is `NULL`, `file_rec` does just where all names sort behind
`".."` and all paths fit, and `file_rec2` just where no entry is deeper than 1000 besides. -/
theorem walks_inBounds_iff (w : World) (dname : Bytes) (done : Flags) :
    (InBounds (fun fuel => Bounds.filemanDir w false fuel dname) ↔
      dname.length < 4096 ∧ w.opendir dname = none) ∧
    (InBounds (fun fuel => filemanTree w false fuel dname done) ↔
      dname.length < 4096 ∧ w.opendir dname = none) ∧
    (InBounds (fun fuel => Bounds.filemanDir w true fuel dname) ↔ dname.length < 4096 ∧
      ∀ entries, w.opendir dname = some entries → entries.Listable dname.length) ∧
    (InBounds (fun fuel => filemanTree w true fuel dname done) ↔ dname.length < 4096 ∧
      ∀ entries, w.opendir dname = some entries →
        entries.Listable dname.length ∧ ∀ q ∈ entries.nodes [], q.length ≤ 1000) :=
  ⟨filemanDir_inBounds_iff.trans filemanDir_returns_iff,
    filemanTree_inBounds_iff.trans fileRec2_returns_iff,
    filemanDir_inBounds_iff.trans filemanDir_room_returns_iff,
    filemanTree_inBounds_iff.trans fileRec2_room_returns_iff⟩

/-- Both walks of a directory with two entries read the element behind them. -/
theorem walks_read_behind : smallWorld.opendir [0x64] =
      some (.file [0x7a] (.dir [0x62] (.file [0x63] .nil) .nil)) ∧
    Bounds.filemanDir smallWorld false 4 [0x64] = .error .entry ∧
    filemanTree smallWorld false 4 [0x64] (fun _ => 0) = .error .entry ∧
    ¬ InBounds (fun fuel => Bounds.filemanDir smallWorld false fuel [0x64]) := by
  have hrun : Bounds.filemanDir smallWorld false 4 [0x64] = .error .entry := by decide
  refine ⟨by decide, hrun, by decide, fun h => ?_⟩
  have hne := h 4 .entry hrun
  cases hne

end CSE130.Fileman
