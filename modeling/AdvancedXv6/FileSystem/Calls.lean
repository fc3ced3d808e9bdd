import AdvancedXv6.FileSystem.Directory

/-!
# System calls

`kernel/sysfile.c` and `kernel/file.c`, and what `fork`, `exec` and `exit` do with files. A call runs from its start to its end, except for `write`: a round of its loop is a transaction, and a call of its own here. There is one device, pipes are left out, and devices are not read or written.
-/

namespace AdvancedXv6.FileSystem

open Function Prog

def maxPath : ℕ := 128

def nofile : ℕ := 16

def nfile : ℕ := 100

def nproc : ℕ := 64

def ndev : ℕ := 10

def oWronly : UInt32 := 0x001
def oRdwr : UInt32 := 0x002
def oCreate : UInt32 := 0x200
def oTrunc : UInt32 := 0x400

/-- A path as `argstr` fetches it: up to the first 0, which must come soon enough. -/
def argstr (path : List UInt8) : Option (List UInt8) :=
  let path := path.takeWhile (· ≠ 0)
  if path.length < maxPath then some path else none

/-! ### Links -/

def changeNlink (ip : ℕ) (change : Int16 → Int16) : FsM Unit := do
  setInode ip fun d => { d with nlink := change d.nlink }
  iupdate ip

/-- `sys_link` from `nameiparent` on: whether the new entry is there. -/
def linkEntry (cwd : ℕ) (new : List UInt8) (ip : ℕ) : FsM Bool := do
  match ← nameiparent cwd new with
  | none => pure false
  | some (dp, name) => do
    ilock dp
    let r ← dirlink dp name ip
    iput dp
    pure (decide (0 ≤ r))

def sysLink (cwd : ℕ) (old new : List UInt8) : FsM ℤ := do
  match ← namei cwd old with
  | none => pure (-1)
  | some ip => do
    ilock ip
    let d ← inode ip
    if d.type = .dir then do
      iput ip
      pure (-1)
    else do
      changeNlink ip (· + 1)
      let linked ← linkEntry cwd new ip
      if linked then do
        iput ip
        pure 0
      else do
        ilock ip
        changeNlink ip (· - 1)
        iput ip
        pure (-1)

def unlinkBad (dp : ℕ) : FsM ℤ := do
  iput dp
  pure (-1)

def unlinkBusy (ip : ℕ) (type : FileType) : FsM Bool :=
  if type = .dir then do
    let empty ← isdirempty ip
    pure (!empty)
  else
    pure false

/-- `sys_unlink` after the entry has been cleared. -/
def unlinkDone (dp ip : ℕ) (type : FileType) : FsM ℤ := do
  if type = .dir then changeNlink dp (· - 1) else pure ()
  iput dp
  changeNlink ip (· - 1)
  iput ip
  pure 0

/-- `sys_unlink` of the entry at offset `off`. -/
def unlinkEntry (dp ip off : ℕ) : FsM ℤ := do
  ilock ip
  let d ← inode ip
  if d.nlink < 1 then
    panic .unlinkNlink
  else do
    let busy ← unlinkBusy ip d.type
    if busy then do
      iput ip
      unlinkBad dp
    else do
      let written ← writeDirent dp Dirent.zero off
      if written = 16 then unlinkDone dp ip d.type else panic .unlinkWritei

def sysUnlink (cwd : ℕ) (path : List UInt8) : FsM ℤ := do
  match ← nameiparent cwd path with
  | none => pure (-1)
  | some (dp, name) => do
    ilock dp
    if namecmp name dot = 0 ∨ namecmp name dotdot = 0 then
      unlinkBad dp
    else do
      match ← dirlookup dp name with
      | none => unlinkBad dp
      | some (ip, off) => unlinkEntry dp ip off

/-! ### `create` -/

def createExisting (dp ip : ℕ) (type : FileType) : FsM (Option ℕ) := do
  iput dp
  ilock ip
  let d ← inode ip
  if type = .file ∧ (d.type = .file ∨ d.type = .device) then
    pure (some ip)
  else do
    iput ip
    pure none

def createDots (dp ip : ℕ) : FsM Bool := do
  let r ← dirlink ip dot ip
  if r < 0 then
    pure false
  else do
    let r ← dirlink ip dotdot dp
    pure (decide (0 ≤ r))

def createEntries (dp : ℕ) (name : List UInt8) (ip : ℕ) (type : FileType) : FsM Bool := do
  let dots ← if type = .dir then createDots dp ip else pure true
  if dots then do
    let r ← dirlink dp name ip
    pure (decide (0 ≤ r))
  else
    pure false

def createFail (dp ip : ℕ) : FsM (Option ℕ) := do
  changeNlink ip fun _ => 0
  iput ip
  iput dp
  pure none

def createDone (dp ip : ℕ) (type : FileType) : FsM (Option ℕ) := do
  if type = .dir then changeNlink dp (· + 1) else pure ()
  iput dp
  pure (some ip)

def createNew (dp : ℕ) (name : List UInt8) (type : FileType) (major : Int16) : FsM (Option ℕ) := do
  let ip ← ialloc type
  if ip = 0 then do
    iput dp
    pure none
  else do
    ilock ip
    setInode ip fun d => { d with major, nlink := 1 }
    iupdate ip
    let linked ← createEntries dp name ip type
    if linked then createDone dp ip type else createFail dp ip

def create (cwd : ℕ) (path : List UInt8) (type : FileType) (major : Int16) : FsM (Option ℕ) := do
  match ← nameiparent cwd path with
  | none => pure none
  | some (dp, name) => do
    ilock dp
    match ← dirlookup dp name with
    | some (ip, _) => createExisting dp ip type
    | none => createNew dp name type major

def sysMake (cwd : ℕ) (path : List UInt8) (type : FileType) (major : Int16) : FsM ℤ := do
  match ← create cwd path type major with
  | none => pure (-1)
  | some ip => do
    iput ip
    pure 0

/-! ### Open files -/

inductive FdType where
  | none
  | inode
  | device
  deriving DecidableEq, Repr

structure File where
  type : FdType
  ref : ℕ
  readable : Bool
  writable : Bool
  ip : ℕ
  off : UInt32
  major : Int16

/-- What a process has to do with files: its open files, as numbers of entries of the file table, and its current directory. -/
structure Process where
  ofile : ℕ → Option ℕ
  cwd : ℕ

structure System where
  fs : Fs
  ftable : ℕ → File
  procs : ℕ → Option Process

abbrev SysM := Prog System Panic

def onFs {α : Type} (x : FsM α) : SysM α := fun s =>
  match x s.fs with
  | .ok (a, fs) => .ok (a, { s with fs })
  | .error e => .error e

def System.setFile (s : System) (f : ℕ) (file : File) : System := { s with ftable := update s.ftable f file }

def System.setProc (s : System) (p : ℕ) (proc : Option Process) : System := { s with procs := update s.procs p proc }

def filealloc : SysM (Option ℕ) := do
  let s ← get
  match (List.range nfile).find? fun f => (s.ftable f).ref = 0 with
  | some f => do
    set (s.setFile f { s.ftable f with ref := 1 })
    pure (some f)
  | none => pure none

def filedup (f : ℕ) : SysM Unit := do
  let s ← get
  if (s.ftable f).ref < 1 then
    panic .filedup
  else
    set (s.setFile f { s.ftable f with ref := (s.ftable f).ref + 1 })

def fileclose (f : ℕ) : SysM Unit := do
  let s ← get
  let file := s.ftable f
  if file.ref < 1 then
    panic .fileclose
  else if 1 < file.ref then
    set (s.setFile f { file with ref := file.ref - 1 })
  else do
    set (s.setFile f { file with ref := 0, type := .none })
    if file.type = .none then pure () else onFs (iput file.ip)

def fdalloc (p : ℕ) (proc : Process) (f : ℕ) : SysM (Option ℕ) :=
  match (List.range nofile).find? fun fd => (proc.ofile fd).isNone with
  | some fd => do
    modify fun s => s.setProc p (some { proc with ofile := update proc.ofile fd (some f) })
    pure (some fd)
  | none => pure none

/-! ### Calls -/

/-- The inode that `sys_open` opens, locked. -/
def openInode (cwd : ℕ) (path : List UInt8) (omode : UInt32) : FsM (Option ℕ) :=
  if omode &&& oCreate ≠ 0 then
    create cwd path .file 0
  else do
    match ← namei cwd path with
    | none => pure none
    | some ip => do
      ilock ip
      let d ← inode ip
      if d.type = .dir ∧ omode ≠ 0 then do
        iput ip
        pure none
      else
        pure (some ip)

/-- What `sys_open` writes into the file, where `old` was. -/
def File.opened (old : File) (ip : ℕ) (d : Dinode) (omode : UInt32) : File :=
  { old with
    type := if d.type = .device then .device else .inode
    major := if d.type = .device then d.major else old.major
    off := if d.type = .device then old.off else 0
    ip
    readable := omode &&& oWronly = 0
    writable := omode &&& oWronly ≠ 0 ∨ omode &&& oRdwr ≠ 0 }

def openTrunc (ip : ℕ) (d : Dinode) (omode : UInt32) : FsM Unit :=
  if omode &&& oTrunc ≠ 0 ∧ d.type = .file then itrunc ip else pure ()

def openFile (p : ℕ) (proc : Process) (ip : ℕ) (d : Dinode) (omode : UInt32) : SysM ℤ := do
  match ← filealloc with
  | none => do
    onFs (iput ip)
    pure (-1)
  | some f => do
    match ← fdalloc p proc f with
    | none => do
      fileclose f
      onFs (iput ip)
      pure (-1)
    | some fd => do
      modify fun s => s.setFile f ((s.ftable f).opened ip d omode)
      onFs (openTrunc ip d omode)
      pure fd

def sysOpen (p : ℕ) (proc : Process) (path : List UInt8) (omode : UInt32) : SysM ℤ := do
  match ← onFs (openInode proc.cwd path omode) with
  | none => pure (-1)
  | some ip => do
    let d ← onFs (inode ip)
    if d.type = .device ∧ (d.major < 0 ∨ Int16.ofNat ndev ≤ d.major) then do
      onFs (iput ip)
      pure (-1)
    else
      openFile p proc ip d omode

def sysClose (p : ℕ) (proc : Process) (fd : ℕ) : SysM ℤ :=
  match proc.ofile fd with
  | none => pure (-1)
  | some f => do
    modify fun s => s.setProc p (some { proc with ofile := update proc.ofile fd none })
    fileclose f
    pure 0

def sysDup (p : ℕ) (proc : Process) (fd : ℕ) : SysM ℤ :=
  match proc.ofile fd with
  | none => pure (-1)
  | some f => do
    match ← fdalloc p proc f with
    | none => pure (-1)
    | some fd => do
      filedup f
      pure fd

/-- The bytes that `fileread` reads from an inode; -1 if they cannot be copied out. -/
def fileread (f : ℕ) (copyout : ℕ → ℕ → Bool) (n : UInt32) : SysM ℤ := do
  let s ← get
  let file := s.ftable f
  if file.readable then
    match file.type with
    | .none => panic .fileread
    | .device => pure (-1)
    | .inode => do
      onFs (ilock file.ip)
      match ← onFs (readi file.ip copyout file.off n) with
      | none => pure (-1)
      | some bytes => do
        modify fun s => s.setFile f { s.ftable f with off := (s.ftable f).off + UInt32.ofNat bytes.length }
        pure bytes.length
  else
    pure (-1)

def maxWrite : Int32 := 3 * 1024

/-- The round of `filewrite` that writes up to `n` bytes. -/
def filewriteRound (f : ℕ) (file : File) (src : Source) (n : Int32) : SysM ℤ := do
  onFs (ilock file.ip)
  let r ← onFs (writei file.ip src file.off (min n maxWrite).toUInt32)
  if 0 < r then do
    modify fun s => s.setFile f { s.ftable f with off := (s.ftable f).off + UInt32.ofNat r.toNat }
    pure r
  else
    pure r

/-- `filewrite` up to the end of its first round. -/
def filewrite (f : ℕ) (src : Source) (n : Int32) : SysM ℤ := do
  let s ← get
  let file := s.ftable f
  if file.writable then
    match file.type with
    | .none => panic .filewrite
    | .device => pure (-1)
    | .inode => if 0 < n then filewriteRound f file src n else pure (if n = 0 then 0 else -1)
  else
    pure (-1)

def filestat (f : ℕ) : SysM ℤ := do
  let s ← get
  if (s.ftable f).type = .none then
    pure (-1)
  else do
    onFs (ilock (s.ftable f).ip)
    pure 0

def withFile (proc : Process) (fd : ℕ) (call : ℕ → SysM ℤ) : SysM ℤ :=
  match proc.ofile fd with
  | none => pure (-1)
  | some f => call f

def sysChdir (p : ℕ) (proc : Process) (path : List UInt8) : SysM ℤ := do
  match ← onFs (namei proc.cwd path) with
  | none => pure (-1)
  | some ip => do
    onFs (ilock ip)
    let d ← onFs (inode ip)
    if d.type = .dir then do
      onFs (iput proc.cwd)
      modify fun s => s.setProc p (some { proc with cwd := ip })
      pure 0
    else do
      onFs (iput ip)
      pure (-1)

/-- The reads of `exec`, all into the kernel. -/
def execReads (ip : ℕ) : List (UInt32 × UInt32) → FsM Unit
  | [] => pure ()
  | (off, n) :: reads => do
    let _ ← readi ip (fun _ _ => true) off n
    execReads ip reads

/-- What `exec` does to the file system. Where it reads depends on the file and on memory. -/
def exec (cwd : ℕ) (path : List UInt8) (reads : List (UInt32 × UInt32)) : FsM ℤ := do
  match ← namei cwd path with
  | none => pure (-1)
  | some ip => do
    ilock ip
    execReads ip reads
    iput ip
    pure 0

def forkFile (proc : Process) (fd : ℕ) : SysM (Option Unit) :=
  match proc.ofile fd with
  | none => pure none
  | some f => do
    filedup f
    pure none

/-- `fork` into the free entry `child` of the process table. -/
def fork (proc : Process) (child : ℕ) : SysM ℤ := do
  let s ← get
  if child < nproc ∧ (s.procs child).isNone then do
    let _ ← loop 1 (forkFile proc) nofile 0
    let _ ← onFs (idup proc.cwd)
    modify fun s => s.setProc child (some proc)
    pure child
  else
    pure (-1)

def exitFile (p fd : ℕ) : SysM (Option Unit) := do
  let s ← get
  match s.procs p with
  | none => pure none
  | some proc =>
    match proc.ofile fd with
    | none => pure none
    | some f => do
      fileclose f
      modify fun s => s.setProc p (some { proc with ofile := update proc.ofile fd none })
      pure none

/-- `exit`; process 0 is `initproc`. -/
def exit (p : ℕ) (proc : Process) : SysM ℤ :=
  if p = 0 then
    panic .initExiting
  else do
    let _ ← loop 1 (exitFile p) nofile 0
    onFs (iput proc.cwd)
    modify fun s => s.setProc p none
    pure 0

inductive Call where
  | openPath (path : List UInt8) (omode : UInt32)
  | mkdir (path : List UInt8)
  | mknod (path : List UInt8) (major : Int16)
  | link (old new : List UInt8)
  | unlink (path : List UInt8)
  | chdir (path : List UInt8)
  | close (fd : ℕ)
  | dup (fd : ℕ)
  | read (fd : ℕ) (copyout : ℕ → ℕ → Bool) (n : UInt32)
  | write (fd : ℕ) (src : Source) (n : Int32)
  | fstat (fd : ℕ)
  | exec (path : List UInt8) (reads : List (UInt32 × UInt32))
  | fork (child : ℕ)
  | exit

def withPath (path : List UInt8) (call : List UInt8 → SysM ℤ) : SysM ℤ :=
  match argstr path with
  | none => pure (-1)
  | some path => call path

def Call.run (p : ℕ) (proc : Process) : Call → SysM ℤ
  | .openPath path omode => withPath path fun path => sysOpen p proc path omode
  | .mkdir path => withPath path fun path => onFs (sysMake proc.cwd path .dir 0)
  | .mknod path major => withPath path fun path => onFs (sysMake proc.cwd path .device major)
  | .link old new => withPath old fun old => withPath new fun new => onFs (sysLink proc.cwd old new)
  | .unlink path => withPath path fun path => onFs (sysUnlink proc.cwd path)
  | .chdir path => withPath path fun path => sysChdir p proc path
  | .close fd => sysClose p proc fd
  | .dup fd => sysDup p proc fd
  | .read fd copyout n => withFile proc fd fun f => fileread f copyout n
  | .write fd src n => withFile proc fd fun f => filewrite f src n
  | .fstat fd => withFile proc fd filestat
  | .exec path reads => withPath path fun path => onFs (FileSystem.exec proc.cwd path reads)
  | .fork child => FileSystem.fork proc child
  | .exit => FileSystem.exit p proc

end AdvancedXv6.FileSystem
