import Mathlib.Data.List.Sort
import CSE130.Library.Run

/-!
# Listing a directory

Rendering of `file_rec` and `fileman_dir` (`Assignment6/fileman.c`). `file_rec` takes the entries of
a directory from index 2 on, as if `"."` and `".."` always came first. An entry that sorts before
`".."` moves `".."` to a later index; the recursion then goes up and comes back, and does not end
before the buffer for the path overflows.
-/

namespace CSE130.Fileman

open Library

/-- A string without its terminator. -/
abbrev Bytes := List UInt8

def slash : UInt8 := 0x2f
def newline : UInt8 := 0x0a
def blank : UInt8 := 0x20
def dot : Bytes := [0x2e]
def dotdot : Bytes := [0x2e, 0x2e]

/-- `strcmp (a, b) <= 0`. -/
def strcmpLe : Bytes → Bytes → Bool
  | [], _ => true
  | _ :: _, [] => false
  | a :: as, b :: bs => if a = b then strcmpLe as bs else a < b

/-- The entries of a directory other than `"."` and `".."`, in the order on the disk. -/
inductive Entries where
  | nil
  | file (name : Bytes) (rest : Entries)
  | dir (name : Bytes) (sub rest : Entries)
  deriving DecidableEq, Repr

/-- A position in the file system: the names on the way from it up to the root. -/
abbrev Pos := List Bytes

namespace Entries

def names : Entries → List Bytes
  | nil => []
  | file name rest => name :: rest.names
  | dir name _ rest => name :: rest.names

/-- The subdirectories with their names. -/
def dirs : Entries → List (Bytes × Entries)
  | nil => []
  | file _ rest => rest.dirs
  | dir name sub rest => (name, sub) :: rest.dirs

/-- The subdirectory of that name. -/
def find (name : Bytes) : Entries → Option Entries
  | nil => none
  | file n rest => if n = name then none else rest.find name
  | dir n sub rest => if n = name then some sub else rest.find name

/-- The directory at a position below `root`. -/
def dirAt (root : Entries) : Pos → Option Entries
  | [] => some root
  | name :: p => (root.dirAt p).bind (find name)

/-- A name that a file can have. -/
def LegalName (name : Bytes) : Prop :=
  name ≠ [] ∧ slash ∉ name ∧ 0 ∉ name ∧ name ≠ dot ∧ name ≠ dotdot

instance (name : Bytes) : Decidable (LegalName name) := inferInstanceAs (Decidable (_ ∧ _))

/-- All names are legal, and those in one directory are distinct. -/
def Legal : Entries → Prop
  | nil => True
  | file name rest => (LegalName name ∧ name ∉ rest.names) ∧ rest.Legal
  | dir name sub rest => (LegalName name ∧ name ∉ rest.names) ∧ sub.Legal ∧ rest.Legal

instance decidableLegal : (entries : Entries) → Decidable entries.Legal
  | nil => inferInstanceAs (Decidable True)
  | file _ rest =>
    have := rest.decidableLegal
    inferInstanceAs (Decidable ((_ ∧ _) ∧ _))
  | dir _ sub rest =>
    have := sub.decidableLegal
    have := rest.decidableLegal
    inferInstanceAs (Decidable ((_ ∧ _) ∧ _ ∧ _))

end Entries

/-- The file system and the current directory. -/
structure World where
  root : Entries
  cwd : Pos
  legal : root.Legal

/-- The components of a path. -/
def components : Bytes → List Bytes
  | [] => [[]]
  | b :: bs =>
    if b = slash then [] :: components bs
    else
      match components bs with
      | [] => [[b]]
      | c :: cs => (b :: c) :: cs

namespace World

/-- One component of a path, from a directory. -/
def walk (w : World) (p : Pos) (name : Bytes) : Option Pos :=
  if name = [] then some p
  else if w.root.dirAt p = none then none
  else if name = dot then some p
  else if name = dotdot then some p.tail
  else some (name :: p)

/-- The position that a path leads to. -/
def resolve (w : World) (path : Bytes) : Option Pos :=
  if path = [] then none
  else (components path).foldlM w.walk (if path.head? = some slash then [] else w.cwd)

/-- `scandir (path, &dir_ls, NULL, alphasort)`: the names in `dir_ls`, or `none` for an error. -/
def scandir (w : World) (path : Bytes) : Option (List Bytes) := do
  let p ← w.resolve path
  let entries ← w.root.dirAt p
  return (dot :: dotdot :: entries.names).insertionSort fun a b => strcmpLe a b

end World

/-- Why a call of `file_rec` is not followed to its end. -/
inductive Abort where
  /-- `strcat` writes behind the end of `thiscp`. -/
  | overflow
  /-- The fuel of the model has run out. -/
  | fuel
  deriving DecidableEq, Repr

/-- A line of the listing. -/
def line (deep : Nat) (name : Bytes) : Bytes :=
  List.replicate (4 * deep) blank ++ name ++ [newline]

/-- `file_rec` (`fileman.c:203-221`): what it writes. -/
def fileRec (w : World) : Nat → Bytes → Nat → Bytes → Except Abort Bytes
  | 0, _, _, _ => throw .fuel
  | fuel + 1, dname, deep, prev => do
    let thiscp := if deep = 0 then prev ++ dname else prev ++ slash :: dname
    check (thiscp.length < 4096) Abort.overflow
    match w.scandir thiscp with
    | none => return line deep dname
    | some dirLs =>
      let below ← (dirLs.drop 2).mapM fun dName => fileRec w fuel dName (deep + 1) thiscp
      return line deep dname ++ below.flatten

/-- `fileman_dir` (`fileman.c:222-227`). -/
def filemanDir (w : World) (fuel : Nat) (dname : Bytes) : Except Abort Bytes :=
  fileRec w fuel dname 0 []

/-! ## The listing that is meant -/

namespace Entries

/-- The entries with what is listed for each of them: the positions in it. -/
def blocks : Pos → Entries → List (Bytes × List Pos)
  | _, nil => []
  | p, file name rest => (name, [name :: p]) :: rest.blocks p
  | p, dir name sub rest =>
    (name, (name :: p) :: ((sub.blocks (name :: p)).insertionSort
      fun a b => strcmpLe a.1 b.1).flatMap Prod.snd) :: rest.blocks p

/-- The positions below `p` in pre-order, with siblings sorted by name. -/
def preorder (p : Pos) (entries : Entries) : List Pos :=
  ((entries.blocks p).insertionSort fun a b => strcmpLe a.1 b.1).flatMap Prod.snd

/-- All positions below `p`, in the order on the disk. -/
def nodes : Pos → Entries → List Pos
  | _, nil => []
  | p, file name rest => (name :: p) :: rest.nodes p
  | p, dir name sub rest => (name :: p) :: (sub.nodes (name :: p) ++ rest.nodes p)

/-- A line for each position, indented by its depth. -/
def listing (dname : Bytes) (entries : Entries) : Bytes :=
  line 0 dname ++ (entries.preorder []).flatMap fun p => line p.length p.headI

/-- Every name below sorts behind `".."`, and every path fits into `thiscp`; `len` is the length of
the path of the directory itself. -/
def Listable : Nat → Entries → Prop
  | _, nil => True
  | len, file name rest =>
    (strcmpLe name dotdot = false ∧ len + 1 + name.length < 4096) ∧ rest.Listable len
  | len, dir name sub rest =>
    (strcmpLe name dotdot = false ∧ len + 1 + name.length < 4096) ∧
      sub.Listable (len + 1 + name.length) ∧ rest.Listable len

instance decidableListable : (len : Nat) → (entries : Entries) → Decidable (entries.Listable len)
  | _, nil => inferInstanceAs (Decidable True)
  | len, file _ rest =>
    have := decidableListable len rest
    inferInstanceAs (Decidable ((_ ∧ _) ∧ _))
  | len, dir name sub rest =>
    have := decidableListable (len + 1 + name.length) sub
    have := decidableListable len rest
    inferInstanceAs (Decidable ((_ ∧ _) ∧ _ ∧ _))

end Entries

end CSE130.Fileman
