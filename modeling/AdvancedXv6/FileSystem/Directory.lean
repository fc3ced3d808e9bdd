import AdvancedXv6.FileSystem.Model

/-!
# Directories and paths

The rest of `kernel/fs.c`: directory entries, `dirlookup`, `dirlink` and `namex`, with the string functions they use, and `isdirempty` of `kernel/sysfile.c`. A string is the list of its bytes; the byte behind it is 0.
-/

namespace AdvancedXv6.FileSystem

open Prog

/-! ### Names -/

def dirsiz : ℕ := 14

def strncmp : ℕ → List UInt8 → List UInt8 → ℤ
  | 0, _, _ => 0
  | n + 1, p, q =>
    if p.headD 0 ≠ 0 ∧ p.headD 0 = q.headD 0 then
      strncmp n p.tail q.tail
    else
      (p.headD 0).toNat - (q.headD 0).toNat

/-- The `n` bytes that `strncpy` writes. -/
def strncpy : ℕ → List UInt8 → List UInt8
  | 0, _ => []
  | n + 1, t => if t.headD 0 = 0 then List.replicate (n + 1) 0 else t.headD 0 :: strncpy n t.tail

def namecmp (s t : List UInt8) : ℤ := strncmp dirsiz s t

def dot : List UInt8 := [46]

def dotdot : List UInt8 := [46, 46]

/-! ### Entries -/

/-- A directory entry; `inum` is an `ushort`, and 0 in an entry that is free. -/
structure Dirent where
  inum : ℕ
  name : List UInt8
  deriving DecidableEq, Repr

def direntSize : ℕ := 16

def Dirent.ofBytes (bytes : List UInt8) : Dirent where
  inum := (bytes.getD 0 0).toNat + 256 * (bytes.getD 1 0).toNat
  name := bytes.drop 2

def Dirent.toBytes (de : Dirent) : List UInt8 := UInt8.ofNat de.inum :: UInt8.ofNat (de.inum / 256) :: de.name

def Dirent.zero : Dirent := { inum := 0, name := List.replicate dirsiz 0 }

def readDirent (dp : ℕ) (e : Panic) (off : ℕ) : FsM Dirent := do
  match ← readi dp (fun _ _ => true) (UInt32.ofNat off) 16 with
  | some bytes => if bytes.length = direntSize then pure (Dirent.ofBytes bytes) else panic e
  | none => panic e

def writeDirent (dp : ℕ) (de : Dirent) (off : ℕ) : FsM ℤ :=
  writei dp (fun j => some (de.toBytes.getD j 0)) (UInt32.ofNat off) 16

/-- How often a loop over the entries from `off` on runs. -/
def rounds (d : Dinode) (off : ℕ) : ℕ := (d.size - off + (direntSize - 1)) / direntSize

def dirlookupEntry (dp : ℕ) (name : List UInt8) (off : ℕ) : FsM (Option (ℕ × ℕ)) := do
  let de ← readDirent dp .dirlookupRead off
  if de.inum = 0 then
    pure none
  else if namecmp name de.name = 0 then do
    let ip ← iget de.inum
    pure (some (ip, off))
  else
    pure none

/-- The inode that the directory has under the name, and the offset of the entry. -/
def dirlookup (dp : ℕ) (name : List UInt8) : FsM (Option (ℕ × ℕ)) := do
  let d ← inode dp
  if d.type = .dir then
    loop direntSize (dirlookupEntry dp name) (rounds d 0) 0
  else
    panic .dirlookupNotDir

def dirlinkEntry (dp off : ℕ) : FsM (Option ℕ) := do
  let de ← readDirent dp .dirlinkRead off
  if de.inum = 0 then pure (some off) else pure none

def dirlink (dp : ℕ) (name : List UInt8) (inum : ℕ) : FsM ℤ := do
  match ← dirlookup dp name with
  | some (ip, _) => do
    iput ip
    pure (-1)
  | none => do
    let d ← inode dp
    let free ← loop direntSize (dirlinkEntry dp) (rounds d 0) 0
    let written ← writeDirent dp { inum, name := strncpy dirsiz name } (free.getD (rounds d 0 * direntSize))
    if written = 16 then pure 0 else pure (-1)

def isdiremptyEntry (dp off : ℕ) : FsM (Option Unit) := do
  let de ← readDirent dp .isdiremptyReadi off
  if de.inum = 0 then pure none else pure (some ())

def isdirempty (dp : ℕ) : FsM Bool := do
  let d ← inode dp
  let entry ← loop direntSize (isdiremptyEntry dp) (rounds d (2 * direntSize)) (2 * direntSize)
  pure entry.isNone

/-! ### Paths -/

def slash : UInt8 := 47

def rootino : ℕ := 1

/-- The next element of the path, and what comes after it. -/
def skipelem (path : List UInt8) : Option (List UInt8 × List UInt8) :=
  let path := path.dropWhile (· == slash)
  if path = [] then
    none
  else
    some ((path.takeWhile (· != slash)).take dirsiz, (path.dropWhile (· != slash)).dropWhile (· == slash))

def namexEnd (nameiparent : Bool) (ip : ℕ) : FsM (Option (ℕ × List UInt8)) :=
  if nameiparent then do
    iput ip
    pure none
  else
    pure (some (ip, []))

def namexLoop (nameiparent : Bool) : ℕ → ℕ → List UInt8 → FsM (Option (ℕ × List UInt8))
  | 0, ip, _ => namexEnd nameiparent ip
  | fuel + 1, ip, path =>
    match skipelem path with
    | none => namexEnd nameiparent ip
    | some (name, rest) => do
      ilock ip
      let d ← inode ip
      if d.type ≠ .dir then do
        iput ip
        pure none
      else if nameiparent ∧ rest = [] then
        pure (some (ip, name))
      else do
        match ← dirlookup ip name with
        | none => do
          iput ip
          pure none
        | some (next, _) => do
          iput ip
          namexLoop nameiparent fuel next rest

/-- `namex` for a process with current directory `cwd`: the inode, and the last element for `nameiparent`. An element has a byte at least, so a round for every byte is enough. -/
def namex (cwd : ℕ) (path : List UInt8) (nameiparent : Bool) : FsM (Option (ℕ × List UInt8)) := do
  let ip ← if path.head? = some slash then iget rootino else idup cwd
  namexLoop nameiparent path.length ip path

def namei (cwd : ℕ) (path : List UInt8) : FsM (Option ℕ) := do
  let result ← namex cwd path false
  pure (result.map Prod.fst)

def nameiparent (cwd : ℕ) (path : List UInt8) : FsM (Option (ℕ × List UInt8)) := namex cwd path true

end AdvancedXv6.FileSystem
