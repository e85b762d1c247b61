import CSE130.Fileman.Directory
import Mathlib.Tactic.ByContra

/-!
# When the listing of a directory is complete

A directory is bad if a name in it sorts before `".."`. From a bad directory `file_rec` goes up to
the parent, and from there it comes back or goes up again, until the path is longer than its buffer
and `scandir` refuses it; what it has written by then is not the listing. Without bad directories,
and with paths short enough for the buffer, it lists what is meant.
-/

namespace CSE130.Fileman

open Library

/-! ## The order of names -/

section Strcmp

theorem strcmpLe_total (a b : Bytes) : strcmpLe a b = true ∨ strcmpLe b a = true := by
  induction a generalizing b with
  | nil => exact Or.inl rfl
  | cons x a ih =>
    cases b with
    | nil => exact Or.inr rfl
    | cons y b =>
      by_cases hxy : x = y
      · subst hxy
        simpa [strcmpLe] using ih b
      · have hne : x.toNat ≠ y.toNat := fun h => hxy (UInt8.toNat_inj.mp h)
        simp only [strcmpLe, hxy, Ne.symm hxy, if_false, decide_eq_true_eq, UInt8.lt_iff_toNat_lt]
        omega

theorem strcmpLe_trans {a b c : Bytes} (hab : strcmpLe a b = true) (hbc : strcmpLe b c = true) :
    strcmpLe a c = true := by
  induction a generalizing b c with
  | nil => rfl
  | cons x a ih =>
    cases b with
    | nil => cases hab
    | cons y b =>
      cases c with
      | nil => cases hbc
      | cons z c =>
        simp only [strcmpLe] at hab hbc ⊢
        by_cases hxy : x = y
        · subst hxy
          by_cases hxz : x = z
          · subst hxz
            simp only [if_true] at hab hbc ⊢
            exact ih hab hbc
          · simpa only [if_neg hxz] using hbc
        · rw [if_neg hxy] at hab
          by_cases hyz : y = z
          · subst hyz
            simpa only [if_neg hxy] using hab
          · rw [if_neg hyz] at hbc
            simp only [decide_eq_true_eq, UInt8.lt_iff_toNat_lt] at hab hbc
            have hlt : x.toNat < z.toNat := by omega
            have hxz : x ≠ z := by
              rintro rfl
              omega
            rw [if_neg hxz]
            simpa only [decide_eq_true_eq, UInt8.lt_iff_toNat_lt] using hlt

theorem strcmpLe_antisymm {a b : Bytes} (hab : strcmpLe a b = true) (hba : strcmpLe b a = true) :
    a = b := by
  induction a generalizing b with
  | nil =>
    cases b with
    | nil => rfl
    | cons y b => cases hba
  | cons x a ih =>
    cases b with
    | nil => cases hab
    | cons y b =>
      by_cases hxy : x = y
      · subst hxy
        simp only [strcmpLe, if_true] at hab hba
        rw [ih hab hba]
      · simp only [strcmpLe, hxy, Ne.symm hxy, if_false, decide_eq_true_eq,
          UInt8.lt_iff_toNat_lt] at hab hba
        omega

instance : Std.Total fun a b : Bytes => strcmpLe a b = true := ⟨strcmpLe_total⟩

instance : IsTrans Bytes fun a b => strcmpLe a b = true := ⟨fun _ _ _ => strcmpLe_trans⟩

/-- `alphasort`. -/
abbrev alphasort (names : List Bytes) : List Bytes :=
  names.insertionSort fun a b => strcmpLe a b

variable {names : List Bytes} {name : Bytes}

/-- Where all names sort behind `".."`, the entries from index 2 on are these names. -/
theorem alphasort_drop (h : ∀ name ∈ names, strcmpLe name dotdot = false) :
    (alphasort (dot :: dotdot :: names)).drop 2 = alphasort names := by
  have hbehind : ∀ name ∈ names, strcmpLe dotdot name = true := by
    intro name hmem
    refine (strcmpLe_total dotdot name).resolve_right ?_
    rw [h name hmem]
    exact Bool.false_ne_true
  have hdot : strcmpLe dot dotdot = true := by decide
  have hparent : alphasort (dotdot :: names) = dotdot :: alphasort names :=
    List.insertionSort_cons_of_forall_rel _ hbehind
  have hself : alphasort (dot :: dotdot :: names) = dot :: alphasort (dotdot :: names) := by
    apply List.insertionSort_cons_of_forall_rel
    intro name hmem
    rcases List.mem_cons.mp hmem with rfl | hmem
    · exact hdot
    · exact strcmpLe_trans hdot (hbehind name hmem)
  rw [hself, hparent]
  rfl

/-- A name that sorts before `".."` moves `".."` to index 2 or behind. -/
theorem dotdot_mem_drop (hmem : name ∈ names) (hdot : name ≠ dot) (hdotdot : name ≠ dotdot)
    (h : strcmpLe name dotdot = true) :
    dotdot ∈ (alphasort (dot :: dotdot :: names)).drop 2 := by
  have hsorted : (alphasort (dot :: dotdot :: names)).Pairwise fun a b => strcmpLe a b = true :=
    List.pairwise_insertionSort _ _
  have hall : ∀ x ∈ dot :: dotdot :: names, x ∈ alphasort (dot :: dotdot :: names) :=
    fun x hx => (List.mem_insertionSort _).mpr hx
  generalize alphasort (dot :: dotdot :: names) = sorted at hsorted hall
  have hself := hall dot (by simp)
  have hparent := hall dotdot (by simp)
  have hname := hall name (by simp [hmem])
  have hne : dot ≠ dotdot := by decide
  -- what stands behind `".."` is not below it
  have hnot : ∀ x, x ≠ dotdot → strcmpLe x dotdot = true → strcmpLe dotdot x ≠ true :=
    fun x hx hle hge => hx (strcmpLe_antisymm hle hge)
  rcases sorted with _ | ⟨a, _ | ⟨b, rest⟩⟩
  · cases hparent
  · rw [List.mem_singleton] at hself hparent
    exact absurd (hself.trans hparent.symm) hne
  · rw [List.drop_succ_cons, List.drop_succ_cons, List.drop_zero]
    obtain ⟨ha, hb, -⟩ : (∀ x ∈ b :: rest, strcmpLe a x = true) ∧
        (∀ x ∈ rest, strcmpLe b x = true) ∧ _ := by
      rw [List.pairwise_cons, List.pairwise_cons] at hsorted
      exact hsorted
    by_contra hrest
    simp only [List.mem_cons, hrest, or_false] at hparent
    rcases hparent with rfl | rfl
    · have hbehind : dot ∈ b :: rest := (List.mem_cons.mp hself).resolve_left hne
      exact hnot dot hne (by decide) (ha dot hbehind)
    · have hfirst : ∀ x, x ∈ a :: dotdot :: rest → x ≠ dotdot → strcmpLe x dotdot = true → x = a := by
        intro x hx hxne hle
        rcases List.mem_cons.mp hx with hx | hx
        · exact hx
        · exact absurd (hb x ((List.mem_cons.mp hx).resolve_left hxne)) (hnot x hxne hle)
      have hd := hfirst dot hself hne (by decide)
      have hn := hfirst name hname hdotdot h
      exact hdot (hn.trans hd.symm)

end Strcmp

/-! ## Paths -/

section Paths

variable {w : World} {p q : Pos} {path name : Bytes} {entries sub : Entries}

theorem components_ne_nil (bs : Bytes) : components bs ≠ [] := by
  induction bs with
  | nil => simp [components]
  | cons b bs ih =>
    rw [components]
    split
    · simp
    · split <;> simp

theorem components_append (bs cs : Bytes) :
    components (bs ++ slash :: cs) = components bs ++ components cs := by
  induction bs with
  | nil => simp [components]
  | cons b bs ih =>
    rw [List.cons_append, components, components, ih]
    by_cases hb : b = slash
    · simp [hb]
    · cases hc : components bs with
      | nil => exact absurd hc (components_ne_nil bs)
      | cons c rest => simp [hb]

theorem components_of_notMem (hne : name ≠ []) (h : slash ∉ name) : components name = [name] := by
  induction name with
  | nil => exact absurd rfl hne
  | cons b name ih =>
    have hb : b ≠ slash := fun hb => h (by simp [hb])
    rw [components, if_neg hb]
    by_cases hname : name = []
    · simp [hname, components]
    · rw [ih hname fun hmem => h (by simp [hmem])]

namespace World

/-- A path with one more component is one more step. -/
theorem resolve_append (hpath : path ≠ []) (hne : name ≠ []) (h : slash ∉ name) :
    w.resolve (path ++ slash :: name) = (w.resolve path).bind fun p => w.walk p name := by
  have hlong : path ++ slash :: name ≠ [] := by simp
  have hhead : (path ++ slash :: name).head? = path.head? := by
    cases path with
    | nil => exact absurd rfl hpath
    | cons b path => rfl
  rw [resolve, resolve, if_neg hlong, if_neg hpath, hhead, components_append,
    components_of_notMem hne h, List.foldlM_append]
  simp [bind]

theorem resolve_ne_nil (h : w.resolve path = some p) : path ≠ [] := by
  rintro rfl
  cases h

theorem resolve_child (h : w.resolve path = some p) (hdir : w.root.dirAt p = some entries)
    (hname : Entries.LegalName name) : w.resolve (path ++ slash :: name) = some (name :: p) := by
  obtain ⟨hne, hslash, -, hdot, hdotdot⟩ := hname
  rw [resolve_append (resolve_ne_nil h) hne hslash, h]
  simp [walk, hne, hdir, hdot, hdotdot]

theorem resolve_parent (h : w.resolve path = some p) (hdir : w.root.dirAt p = some entries) :
    w.resolve (path ++ slash :: dotdot) = some p.tail := by
  have hne : dotdot ≠ dot := by decide
  have hnil : dotdot ≠ [] := by decide
  rw [resolve_append (resolve_ne_nil h) (by decide) (by decide), h]
  simp [walk, hdir, hne, hnil]

theorem scandir_eq (h : w.resolve path = some p) :
    w.scandir path =
      (w.root.dirAt p).map fun entries => alphasort (dot :: dotdot :: entries.names) := by
  cases hdir : w.root.dirAt p <;> simp [scandir, h, hdir, bind, pure]

end World

end Paths

/-! ## Directories -/

namespace Entries

variable {entries sub : Entries} {name : Bytes} {len : Nat} {p : Pos}

theorem mem_names_of_find (h : entries.find name = some sub) : name ∈ entries.names := by
  induction entries with
  | nil => cases h
  | file n rest ih =>
    rw [find] at h
    split_ifs at h
    exact List.mem_cons_of_mem _ (ih h)
  | dir n s rest _ ih =>
    rw [find] at h
    split_ifs at h with hn
    · simp [names, hn]
    · exact List.mem_cons_of_mem _ (ih h)

theorem mem_dirs_of_find (h : entries.find name = some sub) : (name, sub) ∈ entries.dirs := by
  induction entries with
  | nil => cases h
  | file n rest ih =>
    rw [find] at h
    split_ifs at h
    exact ih h
  | dir n s rest _ ih =>
    rw [find] at h
    split_ifs at h with hn
    · cases h
      simp [dirs, hn]
    · exact List.mem_cons_of_mem _ (ih h)

theorem mem_names_of_mem_dirs (h : (name, sub) ∈ entries.dirs) : name ∈ entries.names := by
  induction entries with
  | nil => cases h
  | file n rest ih => exact List.mem_cons_of_mem _ (ih h)
  | dir n s rest _ ih =>
    rcases List.mem_cons.mp h with h | h
    · cases h
      exact List.mem_cons_self
    · exact List.mem_cons_of_mem _ (ih h)

theorem find_of_mem_dirs (hlegal : entries.Legal) (h : (name, sub) ∈ entries.dirs) :
    entries.find name = some sub := by
  induction entries with
  | nil => cases h
  | file n rest ih =>
    have hne : n ≠ name := by
      rintro rfl
      exact hlegal.1.2 (mem_names_of_mem_dirs h)
    rw [find, if_neg hne]
    exact ih hlegal.2 h
  | dir n s rest _ ih =>
    rcases List.mem_cons.mp h with h | h
    · cases h
      rw [find, if_pos rfl]
    · have hne : n ≠ name := by
        rintro rfl
        exact hlegal.1.2 (mem_names_of_mem_dirs h)
      rw [find, if_neg hne]
      exact ih hlegal.2.2 h

theorem Legal.of_mem_names (hlegal : entries.Legal) (h : name ∈ entries.names) : LegalName name := by
  induction entries with
  | nil => cases h
  | file n rest ih =>
    rcases List.mem_cons.mp h with rfl | h
    · exact hlegal.1.1
    · exact ih hlegal.2 h
  | dir n s rest _ ih =>
    rcases List.mem_cons.mp h with rfl | h
    · exact hlegal.1.1
    · exact ih hlegal.2.2 h

theorem Legal.of_mem_dirs (hlegal : entries.Legal) (h : (name, sub) ∈ entries.dirs) : sub.Legal := by
  induction entries with
  | nil => cases h
  | file n rest ih => exact ih hlegal.2 h
  | dir n s rest _ ih =>
    rcases List.mem_cons.mp h with h | h
    · cases h
      exact hlegal.2.1
    · exact ih hlegal.2.2 h

theorem Legal.dirAt {root : Entries} (hlegal : root.Legal) (h : root.dirAt p = some entries) :
    entries.Legal := by
  induction p generalizing entries with
  | nil =>
    cases h
    exact hlegal
  | cons name p ih =>
    obtain ⟨parent, hparent, hfind⟩ := Option.bind_eq_some_iff.mp h
    exact (ih hparent).of_mem_dirs (mem_dirs_of_find hfind)

/-- A name of a directory that is to be listed. -/
def ListableName (len : Nat) (name : Bytes) : Prop :=
  strcmpLe name dotdot = false ∧ len + 1 + name.length < 4096

/-- `Listable` is about the names in the directory and about its subdirectories. -/
theorem listable_iff : entries.Listable len ↔
    (∀ name ∈ entries.names, ListableName len name) ∧
      ∀ name sub, (name, sub) ∈ entries.dirs → sub.Listable (len + 1 + name.length) := by
  induction entries with
  | nil => simp [Listable, names, dirs]
  | file n rest ih =>
    rw [Listable, ih]
    simp only [names, dirs, List.forall_mem_cons, ListableName, and_assoc]
  | dir n s rest _ ih =>
    rw [Listable, ih]
    simp only [names, List.forall_mem_cons, ListableName]
    simp only [dirs, List.mem_cons, Prod.mk.injEq]
    constructor
    · rintro ⟨hname, hsub, hnames, hdirs⟩
      refine ⟨⟨hname, hnames⟩, ?_⟩
      rintro name sub (⟨rfl, rfl⟩ | hmem)
      · exact hsub
      · exact hdirs name sub hmem
    · rintro ⟨⟨hname, hnames⟩, hdirs⟩
      exact ⟨hname, hdirs n s (Or.inl ⟨rfl, rfl⟩), hnames,
        fun name sub hmem => hdirs name sub (Or.inr hmem)⟩

end Entries

/-! ## Runs of `file_rec` -/

section Runs

variable {w : World} {fuel deep : Nat} {dname prev path out name : Bytes} {p pre : Pos}
  {entries sub : Entries}

/-- The path that `file_rec` makes in `thiscp`. -/
def thiscp (dname : Bytes) (deep : Nat) (prev : Bytes) : Bytes :=
  if deep = 0 then prev ++ dname else prev ++ slash :: dname

theorem thiscp_succ (dname : Bytes) (deep : Nat) (prev : Bytes) :
    thiscp dname (deep + 1) prev = prev ++ slash :: dname := rfl

theorem length_thiscp_succ {name path : Bytes} :
    (thiscp name (deep + 1) path).length = path.length + 1 + name.length := by
  rw [thiscp_succ, List.length_append, List.length_cons]
  omega

theorem forall_ok_of_mapM {f : Bytes → Except Abort Bytes} {names : List Bytes} {outs : List Bytes}
    (h : names.mapM f = .ok outs) : ∀ name ∈ names, ∃ out, f name = .ok out := by
  induction names generalizing outs with
  | nil => simp
  | cons n names ih =>
    rw [List.mapM_cons, bind_eq_ok] at h
    obtain ⟨first, hfirst, h⟩ := h
    obtain ⟨rest, hrest, -⟩ := bind_eq_ok.mp h
    intro name hname
    rcases List.mem_cons.mp hname with rfl | hname
    · exact ⟨first, hfirst⟩
    · exact ih hrest name hname

theorem mapM_map_eq_ok {α : Type} {f : Bytes → Except Abort Bytes} {g h : α → Bytes} {l : List α}
    (hall : ∀ x ∈ l, f (g x) = .ok (h x)) : (l.map g).mapM f = .ok (l.map h) := by
  induction l with
  | nil => rfl
  | cons x l ih =>
    rw [List.map_cons, List.mapM_cons, hall x (by simp), ih fun y hy => hall y (by simp [hy])]
    rfl

theorem length_lt_of_ok (h : fileRec w fuel dname deep prev = .ok out) :
    (thiscp dname deep prev).length < 4096 := by
  cases fuel with
  | zero => cases h
  | succ fuel =>
    rw [fileRec] at h
    obtain ⟨_, hcheck, -⟩ := bind_eq_ok.mp h
    exact check_eq_ok.mp hcheck

/-- A call on a directory that returns has called itself for the entries from index 2 on. -/
theorem children_of_ok (h : fileRec w (fuel + 1) dname deep prev = .ok out)
    (hpath : w.resolve (thiscp dname deep prev) = some p)
    (hdir : w.root.dirAt p = some entries) :
    ∀ name ∈ (alphasort (dot :: dotdot :: entries.names)).drop 2,
      ∃ out', fileRec w fuel name (deep + 1) (thiscp dname deep prev) = .ok out' := by
  rw [fileRec] at h
  obtain ⟨-, -, h⟩ := bind_eq_ok.mp h
  rw [← thiscp, World.scandir_eq hpath, hdir, Option.map_some] at h
  obtain ⟨outs, houts, -⟩ := bind_eq_ok.mp h
  exact forall_ok_of_mapM houts

/-- No name in the directory sorts before `".."`. -/
def Good (entries : Entries) : Prop := ∀ name ∈ entries.names, strcmpLe name dotdot = false

theorem dotdot_mem_of_not_good (hlegal : entries.Legal) (h : ¬ Good entries) :
    dotdot ∈ (alphasort (dot :: dotdot :: entries.names)).drop 2 := by
  simp only [Good, not_forall] at h
  obtain ⟨name, hname, hle⟩ := h
  obtain ⟨-, -, -, hdot, hdotdot⟩ := hlegal.of_mem_names hname
  exact dotdot_mem_drop hname hdot hdotdot (by simpa using hle)

/-- A call on a bad directory overflows its buffer in the end: the call for `".."` in it meets the
directory again, or a bad one further up. -/
theorem fileRec_ne_ok (hpath : w.resolve (thiscp dname deep prev) = some p)
    (hdir : w.root.dirAt p = some entries) (hbad : ¬ Good entries) :
    fileRec w fuel dname deep prev ≠ .ok out := by
  induction fuel using Nat.strong_induction_on generalizing dname deep prev p entries out with
  | h fuel ih =>
    intro hrun
    cases fuel with
    | zero => cases hrun
    | succ fuel =>
      obtain ⟨out', hparent⟩ := children_of_ok hrun hpath hdir dotdot
        (dotdot_mem_of_not_good (w.legal.dirAt hdir) hbad)
      have hup : w.resolve (thiscp dotdot (deep + 1) (thiscp dname deep prev)) = some p.tail :=
        World.resolve_parent hpath hdir
      cases p with
      | nil => exact ih fuel (by omega) hup hdir hbad hparent
      | cons name q =>
        obtain ⟨parent, hq, hfind⟩ := Option.bind_eq_some_iff.mp hdir
        by_cases hgood : Good parent
        · cases fuel with
          | zero => cases hparent
          | succ fuel =>
            have hname := Entries.mem_names_of_find hfind
            have hmem : name ∈ (alphasort (dot :: dotdot :: parent.names)).drop 2 := by
              rw [alphasort_drop hgood]
              exact (List.mem_insertionSort _).mpr hname
            obtain ⟨out'', hagain⟩ := children_of_ok hparent hup hq name hmem
            have hdown : w.resolve (thiscp name (deep + 1 + 1)
                (thiscp dotdot (deep + 1) (thiscp dname deep prev))) = some (name :: q) :=
              World.resolve_child hup hq ((w.legal.dirAt hq).of_mem_names hname)
            exact ih fuel (by omega) hdown hdir hbad hagain
        · exact ih fuel (by omega) hup hq hgood hparent

/-- A call that returns has listed a directory without bad directories in it, whose paths fit. -/
theorem listable_of_ok (h : fileRec w fuel dname deep prev = .ok out)
    (hpath : w.resolve (thiscp dname deep prev) = some p)
    (hdir : w.root.dirAt p = some entries) :
    entries.Listable (thiscp dname deep prev).length := by
  induction fuel generalizing dname deep prev p entries out with
  | zero => cases h
  | succ fuel ih =>
    have hgood : Good entries := by
      by_contra hbad
      exact fileRec_ne_ok hpath hdir hbad h
    have hlegal := w.legal.dirAt hdir
    have hchildren := children_of_ok h hpath hdir
    rw [alphasort_drop hgood] at hchildren
    rw [Entries.listable_iff]
    refine ⟨fun name hname => ⟨hgood name hname, ?_⟩, fun name sub hsub => ?_⟩
    · obtain ⟨out', hrun⟩ := hchildren name ((List.mem_insertionSort _).mpr hname)
      rw [← @length_thiscp_succ deep]
      exact length_lt_of_ok hrun
    · have hname := Entries.mem_names_of_mem_dirs hsub
      obtain ⟨out', hrun⟩ := hchildren name ((List.mem_insertionSort _).mpr hname)
      have hbelow : w.root.dirAt (name :: p) = some sub := by
        rw [Entries.dirAt, hdir]
        exact Entries.find_of_mem_dirs hlegal hsub
      rw [← @length_thiscp_succ deep]
      exact ih hrun (World.resolve_child hpath hdir (hlegal.of_mem_names hname)) hbelow

/-! ## The listing -/

/-- What is printed for the positions of a listing. -/
def printed (ps : List Pos) : Bytes := ps.flatMap fun p => line p.length p.headI

theorem printed_flatten (blocks : List (Bytes × List Pos)) :
    (blocks.map fun x => printed x.2).flatten = printed (blocks.flatMap Prod.snd) := by
  rw [printed, List.flatMap_assoc, List.flatMap_def]
  rfl

namespace Entries

/-- How many directories are nested in each other below. -/
def height : Entries → Nat
  | nil => 0
  | file _ rest => rest.height
  | dir _ sub rest => max (sub.height + 1) rest.height

theorem height_lt (h : (name, sub) ∈ entries.dirs) : sub.height < entries.height := by
  induction entries with
  | nil => cases h
  | file n rest ih => exact ih h
  | dir n s rest _ ih =>
    rw [height]
    rcases List.mem_cons.mp h with h | h
    · cases h
      omega
    · have := ih h
      omega

theorem blocks_fst (pre : Pos) (entries : Entries) :
    (entries.blocks pre).map Prod.fst = entries.names := by
  induction entries with
  | nil => rfl
  | file n rest ih => rw [blocks, List.map_cons, ih, names]
  | dir n s rest _ ih => rw [blocks, List.map_cons, ih, names]

theorem mem_blocks (hlegal : entries.Legal) {block : List Pos}
    (h : (name, block) ∈ entries.blocks pre) :
    entries.find name = none ∧ block = [name :: pre] ∨
      ∃ sub, (name, sub) ∈ entries.dirs ∧ block = (name :: pre) :: sub.preorder (name :: pre) := by
  induction entries with
  | nil => cases h
  | file n rest ih =>
    have hnot : n ∉ rest.names := hlegal.1.2
    rcases List.mem_cons.mp h with h | h
    · cases h
      exact Or.inl ⟨by rw [find, if_pos rfl], rfl⟩
    · have hne : n ≠ name := by
        rintro rfl
        exact hnot (by rw [← blocks_fst pre]; exact List.mem_map_of_mem h)
      rw [find, if_neg hne]
      exact ih hlegal.2 h
  | dir n s rest _ ih =>
    have hnot : n ∉ rest.names := hlegal.1.2
    rcases List.mem_cons.mp h with h | h
    · cases h
      exact Or.inr ⟨s, List.mem_cons_self, rfl⟩
    · have hne : n ≠ name := by
        rintro rfl
        exact hnot (by rw [← blocks_fst pre]; exact List.mem_map_of_mem h)
      rw [find, if_neg hne]
      refine (ih hlegal.2.2 h).imp_right ?_
      rintro ⟨sub, hsub, hblock⟩
      exact ⟨sub, List.mem_cons_of_mem _ hsub, hblock⟩

/-- The sorted names are those of the sorted blocks. -/
theorem alphasort_names (pre : Pos) (entries : Entries) :
    alphasort entries.names =
      ((entries.blocks pre).insertionSort fun a b => strcmpLe a.1 b.1).map Prod.fst := by
  rw [← blocks_fst pre]
  exact (List.map_insertionSort _ _ Prod.fst _ fun _ _ _ _ => Iff.rfl).symm

end Entries

/-- The listing has every position below once. -/
theorem Entries.preorder_perm (pre : Pos) (entries : Entries) :
    (entries.preorder pre).Perm (entries.nodes pre) := by
  have hsort : ∀ (pre : Pos) (entries : Entries),
      (entries.preorder pre).Perm ((entries.blocks pre).flatMap Prod.snd) :=
    fun pre entries => (List.perm_insertionSort _ _).flatMap_right _
  refine (hsort pre entries).trans ?_
  induction entries generalizing pre with
  | nil => exact .refl _
  | file n rest ih => exact (ih pre).cons _
  | dir n s rest ihs ih =>
    have hsub : (s.preorder (n :: pre)).Perm (s.nodes (n :: pre)) :=
      (hsort (n :: pre) s).trans (ihs (n :: pre))
    exact (hsub.append (ih pre)).cons _

/-- A position below `pre` goes through a name of the directory, and its own name is legal. -/
theorem Entries.mem_nodes (hlegal : entries.Legal) {q : Pos} (h : q ∈ entries.nodes pre) :
    LegalName q.headI ∧ ∃ name ∈ entries.names, ∃ r, q = r ++ name :: pre := by
  induction entries generalizing pre with
  | nil => cases h
  | file n rest ih =>
    rcases List.mem_cons.mp h with rfl | h
    · exact ⟨hlegal.1.1, n, List.mem_cons_self, [], rfl⟩
    · obtain ⟨hname, name, hmem, hr⟩ := ih hlegal.2 h
      exact ⟨hname, name, List.mem_cons_of_mem _ hmem, hr⟩
  | dir n s rest ihs ih =>
    rcases List.mem_cons.mp h with rfl | h
    · exact ⟨hlegal.1.1, n, List.mem_cons_self, [], rfl⟩
    · rcases List.mem_append.mp h with h | h
      · obtain ⟨hname, name, -, r, rfl⟩ := ihs hlegal.2.1 h
        exact ⟨hname, n, List.mem_cons_self, r ++ [name], by simp⟩
      · obtain ⟨hname, name, hmem, hr⟩ := ih hlegal.2.2 h
        exact ⟨hname, name, List.mem_cons_of_mem _ hmem, hr⟩

theorem append_cons_inj {r r' pre : Pos} {n name : Bytes} (h : r ++ n :: pre = r' ++ name :: pre) :
    n = name := by
  obtain ⟨-, htail⟩ := List.append_inj' h rfl
  exact (List.cons.inj htail).1

theorem Entries.nodes_nodup (hlegal : entries.Legal) : (entries.nodes pre).Nodup := by
  induction entries generalizing pre with
  | nil => exact List.nodup_nil
  | file n rest ih =>
    refine List.nodup_cons.mpr ⟨?_, ih hlegal.2⟩
    intro hmem
    obtain ⟨-, name, hname, r, hr⟩ := mem_nodes hlegal.2 hmem
    have heq : n = name := append_cons_inj (r := []) hr
    exact hlegal.1.2 (heq ▸ hname)
  | dir n s rest ihs ih =>
    have hrest : ∀ r, r ++ n :: pre ∉ rest.nodes pre := by
      intro r hmem
      obtain ⟨-, name, hname, r', hr⟩ := mem_nodes hlegal.2.2 hmem
      exact hlegal.1.2 (append_cons_inj hr ▸ hname)
    have hsub : ∀ q ∈ s.nodes (n :: pre), ∃ m r, q = (r ++ [m]) ++ n :: pre := by
      intro q hq
      obtain ⟨-, m, -, r, rfl⟩ := mem_nodes hlegal.2.1 hq
      exact ⟨m, r, by simp⟩
    refine List.nodup_cons.mpr ⟨?_, List.nodup_append.mpr ⟨ihs hlegal.2.1, ih hlegal.2.2, ?_⟩⟩
    · intro hmem
      rcases List.mem_append.mp hmem with hmem | hmem
      · obtain ⟨m, r, heq⟩ := hsub _ hmem
        have hlen := congrArg List.length heq
        simp only [List.length_append, List.length_cons, List.length_nil] at hlen
        omega
      · exact hrest [] hmem
    · rintro q hq q' hq' rfl
      obtain ⟨m, r, rfl⟩ := hsub q hq
      exact hrest _ hq'

theorem fileRec_file (hlength : (thiscp dname deep prev).length < 4096)
    (hpath : w.resolve (thiscp dname deep prev) = some p) (hfile : w.root.dirAt p = none) :
    fileRec w (fuel + 1) dname deep prev = .ok (line deep dname) := by
  rw [fileRec, ← thiscp, check_bind hlength, World.scandir_eq hpath, hfile]
  rfl

/-- A call on a directory without bad directories in it, whose paths fit, lists what is meant. -/
theorem fileRec_eq (hlength : (thiscp dname deep prev).length < 4096)
    (hpath : w.resolve (thiscp dname deep prev) = some p)
    (hdir : w.root.dirAt p = some entries)
    (hlist : entries.Listable (thiscp dname deep prev).length) (hpre : pre.length = deep)
    (hfuel : entries.height + 2 ≤ fuel) :
    fileRec w fuel dname deep prev = .ok (line deep dname ++ printed (entries.preorder pre)) := by
  induction fuel generalizing dname deep prev p entries pre with
  | zero => omega
  | succ fuel ih =>
    have hlegal := w.legal.dirAt hdir
    obtain ⟨hnames, hdirs⟩ := Entries.listable_iff.mp hlist
    have hdrop := alphasort_drop fun name hname => (hnames name hname).1
    have hcalls : ∀ x ∈ (entries.blocks pre).insertionSort fun a b => strcmpLe a.1 b.1,
        fileRec w fuel x.1 (deep + 1) (thiscp dname deep prev) = .ok (printed x.2) := by
      rintro ⟨name, block⟩ hx
      have hblock := (List.mem_insertionSort _).mp hx
      have hname : name ∈ entries.names := by
        rw [← Entries.blocks_fst pre]
        exact List.mem_map_of_mem hblock
      have hchild : w.resolve (thiscp name (deep + 1) (thiscp dname deep prev)) =
          some (name :: p) := World.resolve_child hpath hdir (hlegal.of_mem_names hname)
      have hfits : (thiscp name (deep + 1) (thiscp dname deep prev)).length < 4096 := by
        rw [length_thiscp_succ]
        exact (hnames name hname).2
      have hbelow : w.root.dirAt (name :: p) = entries.find name := by
        rw [Entries.dirAt, hdir]
        rfl
      rcases Entries.mem_blocks hlegal hblock with ⟨hfile, rfl⟩ | ⟨sub, hsub, rfl⟩
      · obtain ⟨fuel, rfl⟩ : ∃ n, fuel = n + 1 := ⟨fuel - 1, by omega⟩
        have hline := @fileRec_file w fuel _ _ _ _ hfits hchild (hbelow.trans hfile)
        simpa [printed, hpre] using hline
      · have hlt := Entries.height_lt hsub
        have hlist' : sub.Listable (thiscp name (deep + 1) (thiscp dname deep prev)).length := by
          rw [length_thiscp_succ]
          exact hdirs name sub hsub
        have hsubdir := hbelow.trans (Entries.find_of_mem_dirs hlegal hsub)
        have hlines := @ih (deep + 1) name _ _ (name :: pre) sub hfits hchild hsubdir hlist'
          (by simp [hpre]) (by omega)
        simpa [printed, hpre] using hlines
    have hbelow := mapM_map_eq_ok (f := fun dName => fileRec w fuel dName (deep + 1)
      (thiscp dname deep prev)) hcalls
    rw [fileRec, ← thiscp, check_bind hlength, World.scandir_eq hpath, hdir]
    simp only [Option.map_some, hdrop, Entries.alphasort_names pre entries, hbelow]
    simp only [bind, Except.bind, printed_flatten]
    rfl

end Runs

/-- `fileman_dir` returns and prints the listing of a directory if and only if no name below sorts
before `".."` and all paths fit into the buffer. The listing has every position below once, and
neither `"."` nor `".."`. -/
theorem fileman_dir_lists_iff {w : World} {dname : Bytes} {p : Pos} {entries : Entries}
    (hpath : w.resolve dname = some p) (hdir : w.root.dirAt p = some entries) :
    ((∃ fuel, filemanDir w fuel dname = .ok (entries.listing dname)) ↔
      dname.length < 4096 ∧ entries.Listable dname.length) ∧
    (entries.preorder []).Perm (entries.nodes []) ∧ (entries.nodes []).Nodup ∧
    ∀ q ∈ entries.preorder [], q.headI ≠ dot ∧ q.headI ≠ dotdot := by
  have hlegal := w.legal.dirAt hdir
  have hperm := Entries.preorder_perm [] entries
  refine ⟨⟨?_, ?_⟩, hperm, Entries.nodes_nodup hlegal, ?_⟩
  · rintro ⟨fuel, hrun⟩
    exact ⟨length_lt_of_ok hrun, listable_of_ok hrun hpath hdir⟩
  · rintro ⟨hlength, hlist⟩
    exact ⟨entries.height + 2, fileRec_eq hlength hpath hdir hlist rfl (Nat.le_refl _)⟩
  · intro q hq
    obtain ⟨⟨-, -, -, hdot, hdotdot⟩, -⟩ := Entries.mem_nodes hlegal (hperm.mem_iff.mp hq)
    exact ⟨hdot, hdotdot⟩

/-- The directory `d` with the file `z` and the directory `b`, which has the file `c`. -/
def smallWorld : World where
  root := .dir [0x64] (.file [0x7a] (.dir [0x62] (.file [0x63] .nil) .nil)) .nil
  cwd := []
  legal := by decide

theorem fileman_dir_lists_small : ∃ fuel, filemanDir smallWorld fuel [0x64] =
    .ok (line 0 [0x64] ++ line 1 [0x62] ++ line 2 [0x63] ++ line 1 [0x7a]) := by
  have hpath : smallWorld.resolve [0x64] = some [[0x64]] := by decide
  have hdir : smallWorld.root.dirAt [[0x64]] =
      some (.file [0x7a] (.dir [0x62] (.file [0x63] .nil) .nil)) := by decide
  obtain ⟨fuel, hrun⟩ := (fileman_dir_lists_iff hpath hdir).1.mpr (by decide)
  exact ⟨fuel, hrun⟩

/-- The directory `d` with the file `-a`. -/
def dashWorld : World where
  root := .dir [0x64] (.file [0x2d, 0x61] .nil) .nil
  cwd := []
  legal := by decide

/-- The listing of this directory goes up to the parent and comes back until the path overflows its buffer. -/
theorem fileman_dir_goes_up : dashWorld.resolve [0x64] = some [[0x64]] ∧
    dashWorld.root.dirAt [[0x64]] = some (.file [0x2d, 0x61] .nil) ∧
    ∀ fuel out, filemanDir dashWorld fuel [0x64] ≠ .ok out := by
  have hpath : dashWorld.resolve [0x64] = some [[0x64]] := by decide
  have hdir : dashWorld.root.dirAt [[0x64]] = some (.file [0x2d, 0x61] .nil) := by decide
  refine ⟨hpath, hdir, fun fuel out => fileRec_ne_ok hpath hdir ?_⟩
  intro hgood
  have hname := hgood [0x2d, 0x61] (by decide)
  revert hname
  decide

end CSE130.Fileman
