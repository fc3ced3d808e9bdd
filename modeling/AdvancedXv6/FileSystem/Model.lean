import AdvancedXv6.Lib.Program
import Mathlib.Data.Int.Notation
import Mathlib.Logic.Function.Basic

/-!
# Blocks and inodes

`kernel/fs.c`, function by function, up to `writei`. The disk has the free map, the inodes and the data blocks; blocks of other kinds are left out. A pointer to an entry of the inode table is the number of the inode, since the table never has two entries for one inode, and a null pointer is 0. Locks are left out: a function runs from its start to its end.

Data blocks are the buffers as readers see them. A buffer that was changed and not logged, because the source of a write faulted, keeps the change.
-/

namespace AdvancedXv6.FileSystem

open Function Prog

def bsize : ℕ := 1024
def ndirect : ℕ := 12
def nindirect : ℕ := 256
def maxFile : ℕ := ndirect + nindirect

def fsSize : ℕ := 2000

def ninodes : ℕ := 200

/-- What `mkfs` puts before the data blocks: boot block, super block, log, inodes and free map. -/
def nmeta : ℕ := 46

/-! ### Blocks -/

abbrev Block := ℕ → UInt8

def Block.word (block : Block) (j : ℕ) : ℕ :=
  (block (4 * j)).toNat + 2 ^ 8 * (block (4 * j + 1)).toNat + 2 ^ 16 * (block (4 * j + 2)).toNat + 2 ^ 24 * (block (4 * j + 3)).toNat

def Block.setWord (block : Block) (j w : ℕ) : Block := fun i =>
  if i / 4 = j then UInt8.ofNat (w / 2 ^ (8 * (i % 4))) else block i

def Block.bytes (block : Block) (offset n : ℕ) : List UInt8 := (List.range' offset n).map block

def Block.put (block : Block) (offset : ℕ) (bytes : List UInt8) : Block := fun i =>
  if offset ≤ i then bytes.getD (i - offset) (block i) else block i

/-! ### Inodes -/

inductive FileType where
  | free
  | dir
  | file
  | device
  deriving DecidableEq, Repr

/-- What an inode on the disk and its copy in memory have in common. `minor` is never read. -/
structure Dinode where
  type : FileType
  major : Int16
  nlink : Int16
  size : ℕ
  addrs : ℕ → ℕ

structure Inode where
  ref : ℕ
  valid : Bool
  copy : Dinode

structure Fs where
  bitmap : ℕ → Bool
  blocks : ℕ → Block
  dinodes : ℕ → Dinode
  itable : ℕ → Inode

inductive Panic where
  | freeingFreeBlock
  | ilock
  | ilockNoType
  | bmapOutOfRange
  | dirlookupNotDir
  | dirlookupRead
  | dirlinkRead
  | isdiremptyReadi
  | unlinkNlink
  | unlinkWritei
  | filedup
  | fileclose
  | fileread
  | filewrite
  | initExiting
  deriving DecidableEq, Repr

abbrev FsM := Prog Fs Panic

def inode (ip : ℕ) : FsM Dinode := do
  let s ← get
  pure (s.itable ip).copy

def Fs.setEntry (s : Fs) (ip : ℕ) (entry : Inode) : Fs := { s with itable := update s.itable ip entry }

def Fs.setCopy (s : Fs) (ip : ℕ) (copy : Dinode) : Fs := s.setEntry ip { s.itable ip with copy }

def setInode (ip : ℕ) (change : Dinode → Dinode) : FsM Unit := modify fun s => s.setCopy ip (change (s.itable ip).copy)

def Dinode.setAddr (d : Dinode) (k addr : ℕ) : Dinode := { d with addrs := update d.addrs k addr }

def bread (b : ℕ) : FsM Block := do
  let s ← get
  pure (s.blocks b)

def Fs.setBlock (s : Fs) (b : ℕ) (block : Block) : Fs := { s with blocks := update s.blocks b block }

def setBlock (b : ℕ) (change : Block → Block) : FsM Unit := modify fun s => s.setBlock b (change (s.blocks b))

/-! ### The free map -/

def Fs.firstFree (s : Fs) : Option ℕ := (List.range fsSize).find? fun b => !s.bitmap b

/-- A free block is marked and zeroed. -/
def Fs.take (s : Fs) (b : ℕ) : Fs :=
  { s with bitmap := update s.bitmap b true, blocks := update s.blocks b fun _ => 0 }

def balloc : FsM ℕ := do
  let s ← get
  match s.firstFree with
  | some b => do
    set (s.take b)
    pure b
  | none => pure 0

def bfree (b : ℕ) : FsM Unit := do
  let s ← get
  if s.bitmap b then
    set { s with bitmap := update s.bitmap b false }
  else
    panic .freeingFreeBlock

/-! ### The inode table -/

def iupdate (ip : ℕ) : FsM Unit := modify fun s => { s with dinodes := update s.dinodes ip (s.itable ip).copy }

def iget (inum : ℕ) : FsM ℕ := do
  modify fun s =>
    let entry := s.itable inum
    s.setEntry inum (if 0 < entry.ref then { entry with ref := entry.ref + 1 } else { entry with ref := 1, valid := false })
  pure inum

def idup (ip : ℕ) : FsM ℕ := do
  modify fun s => s.setEntry ip { s.itable ip with ref := (s.itable ip).ref + 1 }
  pure ip

def Dinode.fresh (type : FileType) : Dinode := { type, major := 0, nlink := 0, size := 0, addrs := fun _ => 0 }

/-- `ialloc`; 0 without a free inode. -/
def ialloc (type : FileType) : FsM ℕ := do
  let s ← get
  match (List.range' 1 (ninodes - 1)).find? fun inum => (s.dinodes inum).type = .free with
  | some inum => do
    set { s with dinodes := update s.dinodes inum (Dinode.fresh type) }
    iget inum
  | none => pure 0

def ilock (ip : ℕ) : FsM Unit := do
  let s ← get
  if (s.itable ip).ref < 1 then
    panic .ilock
  else if (s.itable ip).valid then
    pure ()
  else do
    set (s.setEntry ip { s.itable ip with valid := true, copy := s.dinodes ip })
    if (s.dinodes ip).type = .free then panic .ilockNoType else pure ()

/-! ### The blocks of a file -/

/-- The block that the `k`th address of the inode names; allocated if there is none, 0 if the disk is full. -/
def bmapAddr (ip k : ℕ) : FsM ℕ := do
  let d ← inode ip
  if d.addrs k = 0 then do
    let addr ← balloc
    if addr = 0 then
      pure 0
    else do
      setInode ip fun d => d.setAddr k addr
      pure addr
  else
    pure (d.addrs k)

/-- The block that the `j`th entry of the indirect block names; allocated if there is none, 0 if the disk is full. -/
def bmapEntry (indirect j : ℕ) : FsM ℕ := do
  let block ← bread indirect
  if block.word j = 0 then do
    let addr ← balloc
    if addr = 0 then
      pure 0
    else do
      setBlock indirect fun block => block.setWord j addr
      pure addr
  else
    pure (block.word j)

def bmap (ip bn : ℕ) : FsM ℕ :=
  if bn < ndirect then
    bmapAddr ip bn
  else if bn - ndirect < nindirect then do
    let addr ← bmapAddr ip ndirect
    if addr = 0 then
      pure 0
    else
      bmapEntry addr (bn - ndirect)
  else
    panic .bmapOutOfRange

def itruncAddr (ip k : ℕ) : FsM (Option Unit) := do
  let d ← inode ip
  if d.addrs k = 0 then
    pure none
  else do
    bfree (d.addrs k)
    setInode ip fun d => d.setAddr k 0
    pure none

def itruncEntry (block : Block) (j : ℕ) : FsM (Option Unit) :=
  if block.word j = 0 then
    pure none
  else do
    bfree (block.word j)
    pure none

def itruncIndirect (ip : ℕ) : FsM Unit := do
  let d ← inode ip
  if d.addrs ndirect = 0 then
    pure ()
  else do
    let block ← bread (d.addrs ndirect)
    let _ ← loop 1 (itruncEntry block) nindirect 0
    bfree (d.addrs ndirect)
    setInode ip fun d => d.setAddr ndirect 0

def itrunc (ip : ℕ) : FsM Unit := do
  let _ ← loop 1 (itruncAddr ip) ndirect 0
  itruncIndirect ip
  setInode ip fun d => { d with size := 0 }
  iupdate ip

/-- What `iput` does when the last reference to an inode without links goes. -/
def ifree (ip : ℕ) : FsM Unit := do
  let s ← get
  if (s.itable ip).ref = 1 ∧ (s.itable ip).valid ∧ (s.itable ip).copy.nlink = 0 then do
    itrunc ip
    setInode ip fun d => { d with type := .free }
    iupdate ip
    modify fun s => s.setEntry ip { s.itable ip with valid := false }
  else
    pure ()

def iput (ip : ℕ) : FsM Unit := do
  ifree ip
  modify fun s => s.setEntry ip { s.itable ip with ref := (s.itable ip).ref - 1 }

/-! ### Reading and writing -/

/-- The rounds of `readi` from `tot` on. `copyout tot m` says whether `m` bytes can be copied to `tot` bytes behind the destination. The bytes read, or none for -1. -/
def readLoop (ip : ℕ) (copyout : ℕ → ℕ → Bool) (n : ℕ) : ℕ → ℕ → ℕ → List UInt8 → FsM (Option (List UInt8))
  | 0, _, _, bytes => pure (some bytes)
  | fuel + 1, tot, off, bytes =>
    if tot < n then do
      let addr ← bmap ip (off / bsize)
      if addr = 0 then
        pure (some bytes)
      else do
        let block ← bread addr
        let m := min (n - tot) (bsize - off % bsize)
        if copyout tot m then
          readLoop ip copyout n fuel (tot + m) (off + m) (bytes ++ block.bytes (off % bsize) m)
        else
          pure none
    else
      pure (some bytes)

/-- `readi`. A round copies a byte at least, so `n` rounds are enough. -/
def readi (ip : ℕ) (copyout : ℕ → ℕ → Bool) (off n : UInt32) : FsM (Option (List UInt8)) := do
  let d ← inode ip
  if d.size < off.toNat ∨ off + n < off then
    pure (some [])
  else
    let n := if d.size < (off + n).toNat then d.size - off.toNat else n.toNat
    readLoop ip copyout n n 0 off.toNat []

/-- Where a write takes its bytes from: a byte, or a fault. -/
abbrev Source := ℕ → Option UInt8

/-- `either_copyin` of `m` bytes: those before the first fault. -/
def copyin (src : Source) (tot : ℕ) : ℕ → List UInt8
  | 0 => []
  | m + 1 =>
    match src tot with
    | some byte => byte :: copyin src (tot + 1) m
    | none => []

/-- The rounds of `writei` from `tot` on: the number of bytes written, and the offset behind them.
After a fault the bytes that have been copied stay in the block here; in the buffer cache they last
until the buffer is used for another block, as `writei` has not logged them. -/
def writeLoop (ip : ℕ) (src : Source) (n : ℕ) : ℕ → ℕ → ℕ → FsM (ℕ × ℕ)
  | 0, tot, off => pure (tot, off)
  | fuel + 1, tot, off =>
    if tot < n then do
      let addr ← bmap ip (off / bsize)
      if addr = 0 then
        pure (tot, off)
      else do
        let m := min (n - tot) (bsize - off % bsize)
        setBlock addr fun block => block.put (off % bsize) (copyin src tot m)
        if (copyin src tot m).length < m then
          pure (tot, off)
        else
          writeLoop ip src n fuel (tot + m) (off + m)
    else
      pure (tot, off)

def growTo (ip last : ℕ) : FsM Unit := setInode ip fun d => { d with size := if d.size < last then last else d.size }

def writei (ip : ℕ) (src : Source) (off n : UInt32) : FsM ℤ := do
  let d ← inode ip
  if d.size < off.toNat ∨ off + n < off then
    pure (-1)
  else if maxFile * bsize < (off + n).toNat then
    pure (-1)
  else do
    let (tot, last) ← writeLoop ip src n.toNat n.toNat 0 off.toNat
    growTo ip last
    iupdate ip
    pure tot

end AdvancedXv6.FileSystem
