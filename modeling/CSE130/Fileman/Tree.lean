import CSE130.Fileman.Listing

/-!
# Drawing a directory tree

Rendering of `file_rec2` and `fileman_tree` (`Assignment6/fileman.c`). Which branches are still open
is kept in the array `done`, which all calls share: a call for a directory at depth `deep` writes
`done[deep]` before each of its entries, and every line reads what the calls above it have written.
-/

namespace CSE130.Fileman

open Library

/-! ## The box drawing characters -/

def TEE : Bytes := [0xe2, 0x94, 0x9c]
def HOR : Bytes := [0xe2, 0x94, 0x80]
def VER : Bytes := [0xe2, 0x94, 0x82]
def ELB : Bytes := [0xe2, 0x94, 0x94]

def spaces : Bytes := List.replicate 4 blank

/-- `cap`. The terminators of this string and of the next two lie one byte behind their arrays;
nothing that is written depends on them. -/
def cap : Bytes := TEE ++ HOR ++ HOR ++ [blank]

/-- `end`. -/
def capEnd : Bytes := ELB ++ HOR ++ HOR ++ [blank]

def spaces2 : Bytes := VER ++ [blank, blank, blank]

/-- What a walk of a directory must not do. -/
inductive Violation where
  /-- An entry behind those that `scandir` has counted is read. -/
  | entry
  /-- A path is written behind the end of `thiscp`. -/
  | path
  /-- An element behind the end of `done` is used. -/
  | done
  /-- The fuel of the model has run out. -/
  | fuel
  deriving DecidableEq, Repr

/-- The array `done`. -/
abbrev Flags := Nat → Int

/-- The characters in front of the connector (`fileman.c:256-263`). -/
def margin (done : Flags) (deep : Nat) : Bytes :=
  (List.range (deep - 1)).flatMap fun i =>
    if done i = 0 then spaces2.take (VER.length + 3) else spaces.take 4

/-- The connector (`fileman.c:264-271`). -/
def connector (deep capType : Nat) : Bytes :=
  if deep > 0 then
    if capType = 0 then cap.take (TEE.length + HOR.length * 2 + 1)
    else capEnd.take (ELB.length + HOR.length * 2 + 1)
  else []

/-- The loop of `file_rec2` (`fileman.c:280-290`) over the entries from `ind` on. `call` is the
recursive call; `room` tells that the entry behind the last one may be read, and is `NULL`. -/
def entriesLoop (room : Bool)
    (call : Bytes → Nat → Flags → Except Violation (Bytes × Flags)) (deep : Nat) :
    List Bytes → Flags → Except Violation (Bytes × Flags)
  | [], done => do
    check (room = true) Violation.entry
    return ([], done)
  | dName :: rest, done => do
    -- the test for the last entry reads the entry after this one
    check (room = true ∨ rest ≠ []) Violation.entry
    check (deep < 1000) Violation.done
    let last := if rest = [] then 1 else 0
    let (out, done) ← call dName last (Function.update done deep last)
    let (out', done) ← entriesLoop room call deep rest done
    return (out ++ out', done)

/-- `file_rec2` (`fileman.c:255-292`): what it writes, and the array. -/
def fileRec2 (w : World) (room : Bool) :
    Nat → Bytes → Nat → Bytes → Nat → Flags → Except Violation (Bytes × Flags)
  | 0, _, _, _, _, _ => throw .fuel
  | fuel + 1, dname, deep, prev, capType, done => do
    check (deep - 1 ≤ 1000) Violation.done
    let out := margin done deep ++ connector deep capType ++ dname ++ [newline]
    let thiscp := if deep = 0 then prev ++ dname else prev ++ slash :: dname
    check (thiscp.length < 4096) Violation.path
    match w.scandir thiscp with
    | none => return (out, done)
    | some dirLs =>
      let call dName last done := fileRec2 w room fuel dName (deep + 1) thiscp last done
      let (below, done) ← entriesLoop room call deep (dirLs.drop 2) done
      return (out ++ below, done)

/-- `fileman_tree` (`fileman.c:294-310`): what it writes. The array is not initialised. -/
def filemanTree (w : World) (room : Bool) (fuel : Nat) (dname : Bytes) (done : Flags) :
    Except Violation Bytes := do
  let (out, _) ← fileRec2 w room fuel dname 0 [] 0 done
  return out

/-! ## The drawing that is meant -/

namespace Entries

/-- The entry at this position is the last one of its directory. -/
def isLast (top : Entries) : Pos → Bool
  | [] => false
  | name :: p =>
    match top.dirAt p with
    | some parent => (alphasort parent.names).getLast? = some name
    | none => false

/-- What stands on a line for an ancestor and the ancestors above it, from the top down. -/
def branches (top : Entries) : Pos → Bytes
  | [] => []
  | name :: p =>
    top.branches p ++
      if top.isLast (name :: p) then [blank, blank, blank, blank]
      else VER ++ [blank, blank, blank]

/-- The line of an entry. -/
def treeLine (top : Entries) : Pos → Bytes
  | [] => []
  | name :: p =>
    top.branches p ++ (if top.isLast (name :: p) then ELB else TEE) ++ HOR ++ HOR ++ [blank] ++
      name ++ [newline]

/-- The root and a line for each position below. -/
def drawing (dname : Bytes) (top : Entries) : Bytes :=
  dname ++ [newline] ++ (top.preorder []).flatMap top.treeLine

end Entries

/-! ## What the array says -/

section Marks

variable {top entries : Entries} {pre p : Pos} {done done' : Flags} {name : Bytes}

/-- `done` tells of the position and of those above it whether they are last entries. -/
def Marks (top : Entries) : Pos → Flags → Prop
  | [], _ => True
  | name :: p, done => Marks top p done ∧ (done p.length = 0 ↔ top.isLast (name :: p) = false)

theorem Marks.frame (h : Marks top p done) (heq : ∀ i < p.length, done' i = done i) :
    Marks top p done' := by
  induction p with
  | nil => trivial
  | cons name p ih =>
    refine ⟨ih h.1 fun i hi => heq i (Nat.lt_succ_of_lt hi), ?_⟩
    rw [heq p.length (Nat.lt_succ_self _)]
    exact h.2

/-- The mark that is set before the call for an entry. -/
theorem Marks.update (h : Marks top p done) {last : Nat}
    (hlast : last = 0 ↔ top.isLast (name :: p) = false) :
    Marks top (name :: p) (Function.update done p.length last) := by
  refine ⟨h.frame fun i hi => Function.update_of_ne (by omega) _ _, ?_⟩
  rw [Function.update_self, Int.natCast_eq_zero]
  exact hlast

theorem branches_eq (h : Marks top p done) :
    ((List.range p.length).flatMap fun i =>
      if done i = 0 then spaces2.take (VER.length + 3) else spaces.take 4) = top.branches p := by
  induction p with
  | nil => rfl
  | cons name p ih =>
    rw [List.length_cons, List.range_succ, List.flatMap_append, ih h.1, Entries.branches,
      List.flatMap_singleton]
    congr 1
    cases hlast : top.isLast (name :: p) with
    | true =>
      have hdone : ¬ done p.length = 0 := by simp [h.2, hlast]
      rw [if_neg hdone]
      rfl
    | false =>
      rw [if_pos (h.2.mpr hlast)]
      rfl

/-- The line that a call writes below the root. -/
theorem line_eq (h : Marks top p done) {capType : Nat}
    (hcap : capType = 0 ↔ top.isLast (name :: p) = false) :
    margin done (p.length + 1) ++ connector (p.length + 1) capType ++ name ++ [newline] =
      top.treeLine (name :: p) := by
  have hmargin : margin done (p.length + 1) = top.branches p := branches_eq h
  have hconnector : connector (p.length + 1) capType =
      (if top.isLast (name :: p) then ELB else TEE) ++ HOR ++ HOR ++ [blank] := by
    rw [connector, if_pos (Nat.succ_pos _)]
    cases hlast : top.isLast (name :: p) with
    | true =>
      have hne : ¬ capType = 0 := by simp [hcap, hlast]
      rw [if_neg hne]
      rfl
    | false =>
      rw [if_pos (hcap.mpr hlast)]
      rfl
  rw [hmargin, hconnector, Entries.treeLine]
  simp only [List.append_assoc]

end Marks

/-! ## The order of siblings -/

namespace Entries

variable {top entries : Entries} {pre : Pos}

theorem Legal.names_nodup (hlegal : entries.Legal) : entries.names.Nodup := by
  induction entries with
  | nil => exact List.nodup_nil
  | file n rest ih => exact List.nodup_cons.mpr ⟨hlegal.1.2, ih hlegal.2⟩
  | dir n s rest _ ih => exact List.nodup_cons.mpr ⟨hlegal.1.2, ih hlegal.2.2⟩

/-- The blocks of a directory in the order of their names. -/
def sortedBlocks (pre : Pos) (entries : Entries) : List (Bytes × List Pos) :=
  (entries.blocks pre).insertionSort fun a b => strcmpLe a.1 b.1

/-- An entry is the last one where nothing follows in the sorted directory. -/
theorem isLast_of_suffix (hsub : top.dirAt pre = some entries) (hlegal : entries.Legal)
    {x : Bytes × List Pos} {rest : List (Bytes × List Pos)}
    (h : x :: rest <:+ entries.sortedBlocks pre) :
    top.isLast (x.1 :: pre) = false ↔ rest ≠ [] := by
  obtain ⟨front, hfront⟩ := h
  have hnames : alphasort entries.names = front.map Prod.fst ++ x.1 :: rest.map Prod.fst := by
    rw [alphasort_names pre, ← sortedBlocks, ← hfront, List.map_append, List.map_cons]
  have hnodup : (alphasort entries.names).Nodup :=
    (List.perm_insertionSort _ _).nodup_iff.mpr hlegal.names_nodup
  simp only [isLast, hsub, hnames, decide_eq_false_iff_not]
  rw [List.getLast?_append]
  rw [hnames] at hnodup
  have hnot : x.1 ∉ rest.map Prod.fst := (List.nodup_cons.mp (List.nodup_append.mp hnodup).2.1).1
  rcases List.eq_nil_or_concat rest with rfl | ⟨init, y, rfl⟩
  · simp
  · have hne : y.1 ≠ x.1 := by
      rintro heq
      exact hnot (by simp [heq])
    simp [List.getLast?_cons, hne]

theorem mem_names_of_sortedBlocks {x : Bytes × List Pos} (hx : x ∈ entries.sortedBlocks pre) :
    x.1 ∈ entries.names := by
  rw [← blocks_fst pre]
  exact List.mem_map_of_mem ((List.mem_insertionSort _).mp hx)

theorem mem_nodes_of_mem_names {name : Bytes} (h : name ∈ entries.names) :
    name :: pre ∈ entries.nodes pre := by
  induction entries with
  | nil => cases h
  | file n rest ih =>
    rcases List.mem_cons.mp h with rfl | h
    · exact List.mem_cons_self
    · exact List.mem_cons_of_mem _ (ih h)
  | dir n s rest _ ih =>
    rcases List.mem_cons.mp h with rfl | h
    · exact List.mem_cons_self
    · exact List.mem_cons_of_mem _ (List.mem_append_right _ (ih h))

theorem mem_nodes_of_mem_dirs {name : Bytes} {sub : Entries} {q : Pos}
    (h : (name, sub) ∈ entries.dirs) (hq : q ∈ sub.nodes (name :: pre)) :
    q ∈ entries.nodes pre := by
  induction entries with
  | nil => cases h
  | file n rest ih => exact List.mem_cons_of_mem _ (ih h)
  | dir n s rest _ ih =>
    refine List.mem_cons_of_mem _ (List.mem_append.mpr ?_)
    rcases List.mem_cons.mp h with h | h
    · cases h
      exact Or.inl hq
    · exact Or.inr (ih h)

end Entries

/-! ## Runs of `file_rec2` -/

section Runs

variable {w : World} {fuel deep capType : Nat} {dname prev out : Bytes} {p pre : Pos}
  {top entries : Entries} {done₀ done : Flags}

/-- Two arrays have the same elements below `deep`. -/
def SameBelow (deep : Nat) (done done' : Flags) : Prop := ∀ i < deep, done' i = done i

/-- What a call below keeps of the array. Its own mark stands at `deep`. -/
theorem SameBelow.of_update {done1 done' : Flags} {last : Nat} (h : SameBelow deep done₀ done1)
    (hcall : SameBelow (deep + 1) (Function.update done1 deep last) done') :
    SameBelow deep done₀ done' := by
  intro i hi
  rw [hcall i (by omega), Function.update_of_ne (by omega), h i hi]

/-- The loop, given what the calls do: a call may change the array from `deep` on. -/
theorem entriesLoop_eq {call : Bytes → Nat → Flags → Except Violation (Bytes × Flags)}
    {l : List (Bytes × List Pos)} {print : Pos → Bytes} (hdeep : l ≠ [] → deep < 1000)
    (hcalls : ∀ x rest, x :: rest <:+ l → ∀ done, SameBelow deep done₀ done →
      ∀ last : Nat, (last = if rest = [] then 1 else 0) →
      ∃ done', call x.1 last (Function.update done deep last) =
        .ok (x.2.flatMap print, done') ∧ SameBelow deep done₀ done')
    (hdone : SameBelow deep done₀ done) :
    ∃ done', entriesLoop true call deep (l.map Prod.fst) done =
      .ok ((l.flatMap Prod.snd).flatMap print, done') ∧ SameBelow deep done₀ done' := by
  induction l generalizing done with
  | nil => exact ⟨done, rfl, hdone⟩
  | cons x rest ih =>
    have hbelow := hdeep (List.cons_ne_nil _ _)
    have hempty : (rest.map Prod.fst = []) = (rest = []) := by simp
    obtain ⟨done1, hcall, hdone1⟩ := hcalls x rest (List.suffix_refl _) done hdone _ rfl
    obtain ⟨done2, hloop, hdone2⟩ := ih (fun _ => hbelow)
      (fun y ys hys => hcalls y ys (hys.trans (List.suffix_cons x rest))) hdone1
    refine ⟨done2, ?_, hdone2⟩
    rw [List.map_cons, entriesLoop, check_bind (Or.inl rfl), check_bind hbelow]
    simp only [hempty, hcall, ok_bind, hloop, List.flatMap_cons, List.flatMap_append]
    rfl

theorem fileRec2_succ {room : Bool} : fileRec2 w room (fuel + 1) dname deep prev capType done = (do
    check (deep - 1 ≤ 1000) Violation.done
    check ((thiscp dname deep prev).length < 4096) Violation.path
    match w.scandir (thiscp dname deep prev) with
    | none => return (margin done deep ++ connector deep capType ++ dname ++ [newline], done)
    | some dirLs =>
      let (below, done') ← entriesLoop room (fun dName last done =>
        fileRec2 w room fuel dName (deep + 1) (thiscp dname deep prev) last done) deep
        (dirLs.drop 2) done
      return (margin done deep ++ connector deep capType ++ dname ++ [newline] ++ below, done')) :=
  rfl

theorem fileRec2_file {room : Bool} (hdeep : deep ≤ 1000)
    (hlength : (thiscp dname deep prev).length < 4096)
    (hpath : w.resolve (thiscp dname deep prev) = some p) (hfile : w.root.dirAt p = none)
    (hline : margin done deep ++ connector deep capType ++ dname ++ [newline] = out) :
    fileRec2 w room (fuel + 1) dname deep prev capType done = .ok (out, done) := by
  have hindex : deep - 1 ≤ 1000 := by omega
  rw [fileRec2_succ, check_bind hindex, check_bind hlength, World.scandir_eq hpath, hfile, hline]
  rfl

/-- A call on a directory whose paths fit and which is not too deep draws what is meant, and leaves
the array as it is below `deep`. -/
theorem fileRec2_eq (hlength : (thiscp dname deep prev).length < 4096)
    (hpath : w.resolve (thiscp dname deep prev) = some p)
    (hdir : w.root.dirAt p = some entries) (hsub : top.dirAt pre = some entries)
    (hlist : entries.Listable (thiscp dname deep prev).length)
    (hdepth : ∀ q ∈ entries.nodes pre, q.length ≤ 1000) (hdeep : deep ≤ 1000)
    (hpre : pre.length = deep) (hmarks : Marks top pre done)
    (hline : margin done deep ++ connector deep capType ++ dname ++ [newline] = out)
    (hfuel : entries.height + 2 ≤ fuel) :
    ∃ done', fileRec2 w true fuel dname deep prev capType done =
      .ok (out ++ (entries.preorder pre).flatMap top.treeLine, done') ∧
        SameBelow deep done done' := by
  induction fuel generalizing dname deep prev p entries pre done capType out with
  | zero => omega
  | succ fuel ih =>
    have hlegal := w.legal.dirAt hdir
    obtain ⟨hnames, hdirs⟩ := Entries.listable_iff.mp hlist
    have hdrop := alphasort_drop fun name hname => (hnames name hname).1
    have hbelow : ∀ name ∈ entries.names, deep + 1 ≤ 1000 := by
      intro name hname
      have := hdepth _ (Entries.mem_nodes_of_mem_names hname)
      rwa [List.length_cons, hpre] at this
    have hcalls : ∀ x rest, x :: rest <:+ entries.sortedBlocks pre → ∀ done1,
        SameBelow deep done done1 →
        ∀ last : Nat, (last = if rest = [] then 1 else 0) →
        ∃ done', fileRec2 w true fuel x.1 (deep + 1) (thiscp dname deep prev) last
            (Function.update done1 deep last) = .ok (x.2.flatMap top.treeLine, done') ∧
          SameBelow deep done done' := by
      rintro ⟨name, block⟩ rest hsuffix done1 hdone1 last hvalue
      have hx : (name, block) ∈ entries.sortedBlocks pre :=
        hsuffix.subset List.mem_cons_self
      have hname : name ∈ entries.names := Entries.mem_names_of_sortedBlocks hx
      have hblock := (List.mem_insertionSort _).mp hx
      have hchild : w.resolve (thiscp name (deep + 1) (thiscp dname deep prev)) =
          some (name :: p) := World.resolve_child hpath hdir (hlegal.of_mem_names hname)
      have hfits : (thiscp name (deep + 1) (thiscp dname deep prev)).length < 4096 := by
        rw [length_thiscp_succ]
        exact (hnames name hname).2
      have hbelowDir : w.root.dirAt (name :: p) = entries.find name := by
        rw [Entries.dirAt, hdir]
        rfl
      have hlast : last = 0 ↔ top.isLast (name :: pre) = false := by
        rw [Entries.isLast_of_suffix hsub hlegal hsuffix]
        rw [hvalue]
        split_ifs with hrest <;> simp [hrest]
      have hmarks1 : Marks top pre done1 := hmarks.frame fun i hi => hdone1 i (hpre ▸ hi)
      have hmarks2 : Marks top (name :: pre) (Function.update done1 deep last) := by
        rw [← hpre]
        exact hmarks1.update hlast
      have hline' := line_eq hmarks2.1 hlast
      rw [hpre] at hline'
      rcases Entries.mem_blocks hlegal hblock with ⟨hfile, rfl⟩ | ⟨sub, hsubdir, rfl⟩
      · obtain ⟨fuel, rfl⟩ : ∃ n, fuel = n + 1 := ⟨fuel - 1, by omega⟩
        refine ⟨Function.update done1 deep last, ?_, hdone1.of_update fun i _ => rfl⟩
        have hcall := @fileRec2_file w fuel _ _ _ _ _ _ _ true (hbelow name hname) hfits hchild
          (hbelowDir.trans hfile) hline'
        simpa using hcall
      · have hlt := Entries.height_lt hsubdir
        have hfind := Entries.find_of_mem_dirs hlegal hsubdir
        have hlist' : sub.Listable (thiscp name (deep + 1) (thiscp dname deep prev)).length := by
          rw [length_thiscp_succ]
          exact hdirs name sub hsubdir
        have hsub' : top.dirAt (name :: pre) = some sub := by
          rw [Entries.dirAt, hsub]
          exact hfind
        obtain ⟨done', hcall, hsame'⟩ := ih hfits hchild (hbelowDir.trans hfind) hsub' hlist'
          (fun q hq => hdepth q (Entries.mem_nodes_of_mem_dirs hsubdir hq)) (hbelow name hname)
          (by simp [hpre]) hmarks2 hline' (by omega)
        refine ⟨done', ?_, hdone1.of_update hsame'⟩
        simpa using hcall
    have hsorted : alphasort entries.names = (entries.sortedBlocks pre).map Prod.fst :=
      Entries.alphasort_names pre entries
    have hroom : entries.sortedBlocks pre ≠ [] → deep < 1000 := by
      intro hne
      obtain ⟨x, rest, hx⟩ := List.exists_cons_of_ne_nil hne
      have hmem : x ∈ entries.sortedBlocks pre := by simp [hx]
      have := hbelow x.1 (Entries.mem_names_of_sortedBlocks hmem)
      omega
    obtain ⟨done', hloop, hsame⟩ := @entriesLoop_eq deep done done
      (fun dName last done => fileRec2 w true fuel dName (deep + 1) (thiscp dname deep prev) last
        done) _ top.treeLine hroom hcalls fun i _ => rfl
    refine ⟨done', ?_, hsame⟩
    have hindex : deep - 1 ≤ 1000 := by omega
    rw [fileRec2_succ, check_bind hindex, check_bind hlength, World.scandir_eq hpath, hdir, hline]
    simp only [Option.map_some, hdrop, hsorted, hloop, ok_bind]
    rfl

end Runs

/-- `fileman_tree` draws a directory if all names below sort behind `".."`, all paths fit into the
buffer and no entry is deeper than the array is long. The drawing has one line for each entry. -/
theorem fileman_tree_draws {w : World} {dname : Bytes} {p : Pos} {entries : Entries}
    (hpath : w.resolve dname = some p) (hdir : w.root.dirAt p = some entries)
    (hlength : dname.length < 4096) (hlist : entries.Listable dname.length)
    (hdepth : ∀ q ∈ entries.nodes [], q.length ≤ 1000) (done : Flags) :
    (∀ fuel, entries.height + 2 ≤ fuel →
      filemanTree w true fuel dname done = .ok (entries.drawing dname)) ∧
    (entries.preorder []).Perm (entries.nodes []) ∧ (entries.nodes []).Nodup := by
  refine ⟨?_, Entries.preorder_perm [] entries, Entries.nodes_nodup (w.legal.dirAt hdir)⟩
  intro fuel hfuel
  obtain ⟨done', hrun, -⟩ := @fileRec2_eq w fuel 0 0 dname [] (dname ++ [newline]) p [] entries
    entries done hlength hpath hdir rfl hlist hdepth (Nat.zero_le _) rfl trivial rfl hfuel
  rw [filemanTree, hrun]
  rfl

theorem fileman_tree_draws_small : ∃ fuel, filemanTree smallWorld true fuel [0x64] (fun _ => 7) =
    .ok ([0x64, newline] ++
      (TEE ++ HOR ++ HOR ++ [blank, 0x62, newline]) ++
      (VER ++ [blank, blank, blank] ++ ELB ++ HOR ++ HOR ++ [blank, 0x63, newline]) ++
      (ELB ++ HOR ++ HOR ++ [blank, 0x7a, newline])) := by
  have hpath : smallWorld.resolve [0x64] = some [[0x64]] := by decide
  have hdir : smallWorld.root.dirAt [[0x64]] =
      some (.file [0x7a] (.dir [0x62] (.file [0x63] .nil) .nil)) := by decide
  exact ⟨3, (fileman_tree_draws hpath hdir (by decide) (by decide) (by decide) fun _ => 7).1 3
    (by decide)⟩

end CSE130.Fileman
