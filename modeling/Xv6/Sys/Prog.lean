import Xv6.Sys.Kernel

/-!
# Inodes and paths

The functions of `fs.c` that lock inodes, drop references to them and follow a path, as programs over
the operations of the kernel.  A path is the list of its bytes.
-/

namespace Xv6.Sys

open Fs (Name)

def disk (o : DiskOp) : KProg o.Res := atomic (.disk o)

/-! ## Inodes -/

def ilock (ip : ℕ) : KProg Unit := do
  atomic (.acquiresleep ip)
  disk (.load ip)

def iunlock (ip : ℕ) : KProg Unit := atomic (.iunlock ip)

/-- The end of `iput` for an inode without links and other references: truncate and free it. -/
def ifree (ip : ℕ) : KProg Unit := do
  disk (.itrunc ip)
  let x ← disk (.get ip)
  disk (.iupdate ip { x.attr with type := 0 })
  disk (.invalidate ip)
  atomic (.releasesleep ip)
  atomic (.derefer ip)

def iput (ip : ℕ) : KProg Unit := do
  let last ← atomic (.iputStart ip)
  if last then ifree ip else pure ()

def iunlockput (ip : ℕ) : KProg Unit := do
  iunlock ip
  iput ip

/-! ## Directories -/

def dirlookup (dp : ℕ) (name : Name) : KProg (Option (ℕ × ℕ)) := do
  match ← disk (.lookup dp name) with
  | none => pure none
  | some (inum, off) =>
      let d ← disk (.get dp)
      let ip ← atomic (.iget d.dev inum)
      pure (some (ip, off))

/-! ## Paths -/

/-- A path, without its NUL. -/
abbrev Path := List Byte

abbrev slash : Byte := 47

/-- The next path element and the rest of the path, without leading slashes. -/
def skipelem (path : Path) : Option (Name × Path) :=
  let path := path.dropWhile (· = slash)
  if path = [] then none
  else some (.ofChars ((path.takeWhile (· ≠ slash)).take DIRSIZ),
    (path.dropWhile (· ≠ slash)).dropWhile (· = slash))

/-- The loop of `namex` from the inode `ip`; with `parent` it stops one level early.  `k` bounds the
number of path elements that are left. -/
def namexFrom (parent : Bool) : (k : ℕ) → (ip : ℕ) → Path → KProg (Option (ℕ × Name))
  | 0, ip, _ => pure (some (ip, fun _ => 0))
  | k + 1, ip, path =>
      match skipelem path with
      | none =>
          if parent then do
            iput ip
            pure none
          else pure (some (ip, fun _ => 0))
      | some (name, path) => do
          ilock ip
          let x ← disk (.get ip)
          if x.attr.type ≠ T_DIR then
            iunlockput ip
            pure none
          else if parent = true ∧ path = [] then
            iunlock ip
            pure (some (ip, name))
          else
            match ← dirlookup ip name with
            | none =>
                iunlockput ip
                pure none
            | some (next, _) =>
                iunlockput ip
                namexFrom parent k next path

def namexStart (path : Path) : KProg ℕ :=
  if path.head? = some slash then atomic (.iget ROOTDEV ROOTINO) else atomic .idupCwd

/-- `namex`. -/
def namex (path : Path) (parent : Bool) : KProg (Option (ℕ × Name)) := do
  let ip ← namexStart path
  namexFrom parent (path.length + 1) ip path

end Xv6.Sys
