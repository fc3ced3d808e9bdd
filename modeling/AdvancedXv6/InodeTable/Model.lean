import AdvancedXv6.Lib.Threads
import AdvancedXv6.FileSystem.Model
import Mathlib.Data.List.FinRange

/-!
# The inode table under concurrency

`kernel/fs.c` from `ialloc` to `writei` once more, this time for processes that run at the same time. The code of a function is a sequence of atomic actions: one for each section that runs under `itable.lock` or under the lock of a buffer, one for taking and one for releasing the sleep-lock of an entry, and one for each access to the fields that the sleep-lock protects. The inodes on the disk are as seen through the buffer cache.

An entry of the table is known by its place in it, and has the device and the number of the inode it is used for. There are `t` processes, `n` entries and `r` variables of the kernel that can hold a pointer to an entry: local variables, working directories and open files. A variable that holds a pointer owns one reference to the entry. Any process may use any variable, but the pointer in it is given up only when no call is using it and the entry is not locked through it. A process unlocks and changes only what it has locked. That is all that is asked of the callers.
-/

namespace AdvancedXv6.InodeTable

open Function Threads
open FileSystem (bsize ndirect nindirect maxFile fsSize ninodes Block FileType Source copyin)

/-- An inode on the disk (`struct dinode`), and the part of an entry that is a copy of it. -/
structure Dinode where
  type : FileType
  major : Int16
  minor : Int16
  nlink : Int16
  size : ℕ
  addrs : ℕ → ℕ

structure Inode (t : ℕ) where
  dev : ℕ
  inum : ℕ
  ref : ℤ
  valid : Bool
  copy : Dinode
  lock : Option (Fin t)

/-- The disks and the table, and who uses which pointer: `pointers h` is the entry that the variable `h` points to, `locked h` the process that has locked it through `h`, and `inUse p` the variable that the call of process `p` uses. -/
structure Kernel (t n r : ℕ) where
  itable : Fin n → Inode t
  dinodes : ℕ → ℕ → Dinode
  bitmap : ℕ → ℕ → Bool
  blocks : ℕ → ℕ → Block
  pointers : Fin r → Option (Fin n)
  locked : Fin r → Option (Fin t)
  inUse : Fin t → Option (Fin r)

inductive Panic where
  | igetNoInodes
  | ilock
  | ilockNoType
  | iunlock
  | bmapOutOfRange
  | freeingFreeBlock
  | schedLocks
  deriving DecidableEq

variable {t n r : ℕ}

namespace Kernel

def setEntry (s : Kernel t n r) (e : Fin n) (entry : Inode t) : Kernel t n r := { s with itable := update s.itable e entry }

def setDinode (s : Kernel t n r) (dev inum : ℕ) (d : Dinode) : Kernel t n r :=
  { s with dinodes := update s.dinodes dev (update (s.dinodes dev) inum d) }

def setBlock (s : Kernel t n r) (dev b : ℕ) (block : Block) : Kernel t n r :=
  { s with blocks := update s.blocks dev (update (s.blocks dev) b block) }

def setBit (s : Kernel t n r) (dev b : ℕ) (bit : Bool) : Kernel t n r :=
  { s with bitmap := update s.bitmap dev (update (s.bitmap dev) b bit) }

def dinode (s : Kernel t n r) (e : Fin n) : Dinode := s.dinodes (s.itable e).dev (s.itable e).inum

end Kernel

abbrev Sys (t n r : ℕ) := Threads.Code (Kernel t n r) Panic

/-! ### Accesses -/

def inode (e : Fin n) : Sys t n r Dinode := .read fun s => (s.itable e).copy

def setInode (e : Fin n) (change : Dinode → Dinode) : Sys t n r Unit :=
  .write fun s => s.setEntry e { s.itable e with copy := change (s.itable e).copy }

def setValid (e : Fin n) (valid : Bool) : Sys t n r Unit := .write fun s => s.setEntry e { s.itable e with valid }

def acquiresleep (p : Fin t) (e : Fin n) : Sys t n r Unit := .atom fun s =>
  match (s.itable e).lock with
  | none => .done () (s.setEntry e { s.itable e with lock := some p })
  | some _ => .blocked

def releasesleep (e : Fin n) : Sys t n r Unit := .write fun s => s.setEntry e { s.itable e with lock := none }

def bread (dev b : ℕ) : Sys t n r Block := .read fun s => s.blocks dev b

def setBlock (dev b : ℕ) (change : Block → Block) : Sys t n r Unit := .write fun s => s.setBlock dev b (change (s.blocks dev b))

/-! ### Blocks -/

/-- The first block that is free. It is not unfolded in proofs, so that no proof runs over the disk. -/
@[irreducible] def Kernel.firstFree (s : Kernel t n r) (dev : ℕ) : Option ℕ := (List.range fsSize).find? fun b => !s.bitmap dev b

def balloc.mark (dev : ℕ) : Sys t n r (Option ℕ) := .atom fun s =>
  match s.firstFree dev with
  | some b => .done (some b) (s.setBit dev b true)
  | none => .done none s

/-- `balloc`: a block that has been marked is zeroed; 0 without a free one. -/
def balloc (dev : ℕ) : Sys t n r ℕ := do
  match ← balloc.mark dev with
  | none => pure 0
  | some b =>
    setBlock dev b fun _ _ => 0
    pure b

def bfree (dev b : ℕ) : Sys t n r Unit := .atom fun s =>
  if s.bitmap dev b then .done () (s.setBit dev b false) else .panic .freeingFreeBlock

/-! ### Inodes -/

def iupdate (e : Fin n) : Sys t n r Unit := .write fun s => s.setDinode (s.itable e).dev (s.itable e).inum (s.itable e).copy

def iget (dev inum : ℕ) : Sys t n r (Fin n) := .atom fun s =>
  match (List.finRange n).find? fun e => 0 < (s.itable e).ref ∧ (s.itable e).dev = dev ∧ (s.itable e).inum = inum with
  | some e => .done e (s.setEntry e { s.itable e with ref := (s.itable e).ref + 1 })
  | none =>
    match (List.finRange n).find? fun e => (s.itable e).ref = 0 with
    | none => .panic .igetNoInodes
    | some e => .done e (s.setEntry e { s.itable e with dev, inum, ref := 1, valid := false })

def idup (e : Fin n) : Sys t n r Unit := .write fun s => s.setEntry e { s.itable e with ref := (s.itable e).ref + 1 }

def Dinode.fresh (type : FileType) : Dinode := { type, major := 0, minor := 0, nlink := 0, size := 0, addrs := fun _ => 0 }

/-- The loop of `ialloc`: an inode is looked at and taken under the lock of its buffer. -/
def ialloc.scan (dev : ℕ) (type : FileType) : List ℕ → Sys t n r (Option (Fin n))
  | [] => pure none
  | inum :: rest => do
    let free ← Threads.Code.atom fun s =>
      if (s.dinodes dev inum).type = .free then .done true (s.setDinode dev inum (Dinode.fresh type)) else .done false s
    if free then do
      let e ← iget dev inum
      pure (some e)
    else
      scan dev type rest

def ialloc (dev : ℕ) (type : FileType) : Sys t n r (Option (Fin n)) := ialloc.scan dev type (List.range' 1 (ninodes - 1))

/-- What `ilock` does for an entry that has not been read: the inode is copied from the disk. -/
def ilock.load (e : Fin n) : Sys t n r Unit := do
  Threads.Code.write fun s => s.setEntry e { s.itable e with copy := s.dinode e }
  setValid e true
  let d ← inode e
  if d.type = .free then Threads.Code.atom fun _ => .panic .ilockNoType

def ilock (p : Fin t) (e : Fin n) : Sys t n r Unit := do
  Threads.Code.atom fun s => if (s.itable e).ref < 1 then .panic .ilock else .done () s
  acquiresleep p e
  let valid ← Threads.Code.read fun s => (s.itable e).valid
  if !valid then ilock.load e

def iunlock (p : Fin t) (e : Fin n) : Sys t n r Unit := do
  Threads.Code.atom fun s => if (s.itable e).lock ≠ some p ∨ (s.itable e).ref < 1 then .panic .iunlock else .done () s
  releasesleep e

/-! ### The blocks of a file -/

/-- The block that the `k`th address of the inode names; allocated if there is none, 0 if the disk is full. -/
def bmapAddr (dev : ℕ) (e : Fin n) (k : ℕ) : Sys t n r ℕ := do
  let d ← inode e
  if d.addrs k = 0 then do
    let addr ← balloc dev
    if addr = 0 then
      pure 0
    else do
      setInode e fun d => { d with addrs := update d.addrs k addr }
      pure addr
  else
    pure (d.addrs k)

/-- The block that the `j`th entry of the indirect block names; allocated if there is none, 0 if the disk is full. -/
def bmapEntry (dev indirect j : ℕ) : Sys t n r ℕ := do
  let block ← bread dev indirect
  if block.word j = 0 then do
    let addr ← balloc dev
    if addr = 0 then
      pure 0
    else do
      setBlock dev indirect fun block => block.setWord j addr
      pure addr
  else
    pure (block.word j)

def bmap (dev : ℕ) (e : Fin n) (bn : ℕ) : Sys t n r ℕ :=
  if bn < ndirect then
    bmapAddr dev e bn
  else if bn - ndirect < nindirect then do
    let addr ← bmapAddr dev e ndirect
    if addr = 0 then
      pure 0
    else
      bmapEntry dev addr (bn - ndirect)
  else
    Threads.Code.atom fun _ => .panic .bmapOutOfRange

def itrunc.direct (dev : ℕ) (e : Fin n) : List ℕ → Sys t n r Unit
  | [] => pure ()
  | k :: rest => do
    let d ← inode e
    if d.addrs k ≠ 0 then
      bfree dev (d.addrs k)
      setInode e fun d => { d with addrs := update d.addrs k 0 }
    direct dev e rest

def itrunc.entries (dev : ℕ) (block : Block) : List ℕ → Sys t n r Unit
  | [] => pure ()
  | j :: rest => do
    if block.word j ≠ 0 then bfree dev (block.word j)
    entries dev block rest

def itrunc.indirect (dev : ℕ) (e : Fin n) : Sys t n r Unit := do
  let d ← inode e
  if d.addrs ndirect ≠ 0 then
    let block ← bread dev (d.addrs ndirect)
    itrunc.entries dev block (List.range nindirect)
    bfree dev (d.addrs ndirect)
    setInode e fun d => { d with addrs := update d.addrs ndirect 0 }

def itrunc (e : Fin n) : Sys t n r Unit := do
  let dev ← Threads.Code.read fun s => (s.itable e).dev
  itrunc.direct dev e (List.range ndirect)
  itrunc.indirect dev e
  setInode e fun d => { d with size := 0 }
  iupdate e

/-- The first section of `iput`: the last reference to an inode without links locks the entry, which is then freed; any other reference goes. To wait for the sleep-lock here would be to sleep with `itable.lock` held, and `sched` panics. -/
def iput.last (p : Fin t) (e : Fin n) : Sys t n r Bool := .atom fun s =>
  if (s.itable e).ref = 1 ∧ (s.itable e).valid ∧ (s.itable e).copy.nlink = 0 then
    match (s.itable e).lock with
    | none => .done true (s.setEntry e { s.itable e with lock := some p })
    | some _ => .panic .schedLocks
  else
    .done false (s.setEntry e { s.itable e with ref := (s.itable e).ref - 1 })

def iput (p : Fin t) (e : Fin n) : Sys t n r Unit := do
  let last ← iput.last p e
  if last then
    itrunc e
    setInode e fun d => { d with type := .free }
    iupdate e
    setValid e false
    releasesleep e
    Threads.Code.write fun s => s.setEntry e { s.itable e with ref := (s.itable e).ref - 1 }

/-! ### Reading and writing -/

/-- The rounds of `readi` from `tot` on. `copyout tot m` says whether `m` bytes can be copied to `tot` bytes behind the destination. The bytes read, or none for -1. -/
def readi.loop (dev : ℕ) (e : Fin n) (copyout : ℕ → ℕ → Bool) (len : ℕ) : ℕ → ℕ → ℕ → List UInt8 → Sys t n r (Option (List UInt8))
  | 0, _, _, bytes => pure (some bytes)
  | fuel + 1, tot, off, bytes =>
    if tot < len then do
      let addr ← bmap dev e (off / bsize)
      if addr = 0 then
        pure (some bytes)
      else do
        let block ← bread dev addr
        let m := min (len - tot) (bsize - off % bsize)
        if copyout tot m then
          loop dev e copyout len fuel (tot + m) (off + m) (bytes ++ block.bytes (off % bsize) m)
        else
          pure none
    else
      pure (some bytes)

/-- `readi`. A round copies a byte at least, so as many rounds as bytes are enough. -/
def readi (e : Fin n) (copyout : ℕ → ℕ → Bool) (off len : UInt32) : Sys t n r (Option (List UInt8)) := do
  let dev ← Threads.Code.read fun s => (s.itable e).dev
  let d ← inode e
  if d.size < off.toNat ∨ off + len < off then
    pure (some [])
  else
    let len := if d.size < (off + len).toNat then d.size - off.toNat else len.toNat
    readi.loop dev e copyout len len 0 off.toNat []

/-- The rounds of `writei` from `tot` on: the number of bytes written, and the offset behind them. -/
def writei.loop (dev : ℕ) (e : Fin n) (src : Source) (len : ℕ) : ℕ → ℕ → ℕ → Sys t n r (ℕ × ℕ)
  | 0, tot, off => pure (tot, off)
  | fuel + 1, tot, off =>
    if tot < len then do
      let addr ← bmap dev e (off / bsize)
      if addr = 0 then
        pure (tot, off)
      else do
        let m := min (len - tot) (bsize - off % bsize)
        setBlock dev addr fun block => block.put (off % bsize) (copyin src tot m)
        if (copyin src tot m).length < m then
          pure (tot, off)
        else
          loop dev e src len fuel (tot + m) (off + m)
    else
      pure (tot, off)

def writei (e : Fin n) (src : Source) (off len : UInt32) : Sys t n r ℤ := do
  let dev ← Threads.Code.read fun s => (s.itable e).dev
  let d ← inode e
  if d.size < off.toNat ∨ off + len < off then
    pure (-1)
  else if maxFile * bsize < (off + len).toNat then
    pure (-1)
  else do
    let (tot, last) ← writei.loop dev e src len.toNat len.toNat 0 off.toNat
    setInode e fun d => { d with size := if d.size < last then last else d.size }
    iupdate e
    pure tot

/-! ### Link counts -/

/-- The updates that `sysfile.c` makes to the fields of a locked inode, each followed by `iupdate`: one more link in `sys_link`, and for `..` in `create`; one less in `sys_unlink` and on the failure path of `sys_link`; the fields of a new inode in `create`, and no link on its failure path. -/
inductive LinkUpdate where
  | inc
  | dec
  | init (major minor : Int16)
  | clear

def LinkUpdate.apply : LinkUpdate → Dinode → Dinode
  | .inc, d => { d with nlink := d.nlink + 1 }
  | .dec, d => { d with nlink := d.nlink - 1 }
  | .init major minor, d => { d with major, minor, nlink := 1 }
  | .clear, d => { d with nlink := 0 }

def updateLinks (e : Fin n) (u : LinkUpdate) : Sys t n r Unit := do
  setInode e u.apply
  iupdate e

/-! ### Pointers -/

def enter (p : Fin t) (h : Fin r) : Sys t n r (Fin n) := .atom fun s =>
  match s.pointers h with
  | none => .blocked
  | some e => .done e { s with inUse := update s.inUse p (some h) }

def enterLocked (p : Fin t) (h : Fin r) : Sys t n r (Fin n) := .atom fun s =>
  match s.pointers h with
  | none => .blocked
  | some e => if s.locked h = some p then .done e { s with inUse := update s.inUse p (some h) } else .blocked

def enterUnlock (p : Fin t) (h : Fin r) : Sys t n r (Fin n) := .atom fun s =>
  match s.pointers h with
  | none => .blocked
  | some e =>
    if s.locked h = some p then .done e { s with locked := update s.locked h none, inUse := update s.inUse p (some h) } else .blocked

def leave (p : Fin t) : Sys t n r Unit := .write fun s => { s with inUse := update s.inUse p none }

def leaveLocked (p : Fin t) (h : Fin r) : Sys t n r Unit := .write fun s =>
  { s with locked := update s.locked h (some p), inUse := update s.inUse p none }

def giveUp (h : Fin r) : Sys t n r (Fin n) := .atom fun s =>
  match s.pointers h with
  | none => .blocked
  | some e => if s.locked h = none ∧ ∀ q, s.inUse q ≠ some h then .done e { s with pointers := update s.pointers h none } else .blocked

def keep (e : Fin n) : Sys t n r Unit := .atom fun s =>
  match (List.finRange r).find? fun h => s.pointers h = none with
  | none => .blocked
  | some h => .done () { s with pointers := update s.pointers h (some e) }

/-! ### Runs -/

inductive Call (r : ℕ) where
  | iget (dev inum : ℕ)
  | ialloc (dev : ℕ) (type : FileType)
  | idup (h : Fin r)
  | ilock (h : Fin r)
  | iunlock (h : Fin r)
  | iput (h : Fin r)
  | iupdate (h : Fin r)
  | itrunc (h : Fin r)
  | readi (h : Fin r) (copyout : ℕ → ℕ → Bool) (off len : UInt32)
  | writei (h : Fin r) (src : Source) (off len : UInt32)
  | updateLinks (h : Fin r) (u : LinkUpdate)

def program (p : Fin t) : Call r → Sys t n r Unit
  | .iget dev inum => do
    let e ← iget dev inum
    keep e
  | .ialloc dev type => do
    match ← ialloc dev type with
    | none => pure ()
    | some e => keep e
  | .idup h => do
    let e ← enter p h
    idup e
    leave p
    keep e
  | .ilock h => do
    let e ← enter p h
    ilock p e
    leaveLocked p h
  | .iunlock h => do
    let e ← enterUnlock p h
    iunlock p e
    leave p
  | .iput h => do
    let e ← giveUp h
    iput p e
  | .iupdate h => do
    let e ← enterLocked p h
    iupdate e
    leave p
  | .itrunc h => do
    let e ← enterLocked p h
    itrunc e
    leave p
  | .readi h copyout off len => do
    let e ← enterLocked p h
    let _ ← readi e copyout off len
    leave p
  | .writei h src off len => do
    let e ← enterLocked p h
    let _ ← writei e src off len
    leave p
  | .updateLinks h u => do
    let e ← enterLocked p h
    updateLinks e u
    leave p

abbrev System (t n r : ℕ) := Pool (Fin t) (Kernel t n r) Panic Unit

/-- A process calls one of the functions, or runs the next action of the one it is in. -/
def System.next (x : System t n r) (e : Event (Fin t) (Call r)) : Option (System t n r) := Pool.next program (fun _ _ _ => true) x e

/-- Every block below the size has an address: its own, or that of the indirect block that names it. -/
def Dinode.NoHoles (d : Dinode) : Prop := ∀ bn, bn * bsize < d.size → d.addrs (min bn ndirect) ≠ 0

/-- Booting from an image without holes: the table is empty, and no process is in a call. -/
structure System.Init (x : System t n r) : Prop where
  image : ∀ dev inum, (x.shared.dinodes dev inum).type ≠ .free → (x.shared.dinodes dev inum).NoHoles
  ref : ∀ e, (x.shared.itable e).ref = 0
  lock : ∀ e, (x.shared.itable e).lock = none
  pointers : ∀ h, x.shared.pointers h = none
  locked : ∀ h, x.shared.locked h = none
  inUse : ∀ p, x.shared.inUse p = none
  returned : ∀ p, x.Returned p

end AdvancedXv6.InodeTable
