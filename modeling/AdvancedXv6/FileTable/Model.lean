import AdvancedXv6.Lib.Threads
import Mathlib.Data.List.FinRange
import Mathlib.Data.Int.Notation

/-!
# The table of open files

The open files of all processes stand in one table (`file.c`). An entry counts the references to it; a process refers to it from the slots of its descriptor table `ofile`, and in the middle of a system call from local variables. A pipe (`pipe.c`) is a page that two entries own together, its read end and its write end.

The system calls that make, copy and drop references are written here as code for threads: one action for each section that runs under `ftable.lock` or a pipe's lock, and one for each access of a process to its own descriptor table, so calls of different processes interleave between any two of these. There are `n` processes, `k` descriptors for each and `m` entries in the table. What the calls learn from other parts of the kernel is an argument of the call: what the path of `open` names, whether there is a page for a pipe or memory for a child, and whether `copyout` faults.
-/

namespace AdvancedXv6.FileTable

open Function Threads

inductive FdType where
  | none
  | pipe
  | inode
  | device
  deriving DecidableEq

/-- An entry of `ftable`. A pipe's page goes by its number. -/
structure File where
  type : FdType := .none
  ref : ℤ := 0
  readable : Bool := false
  writable : Bool := false
  pipe : ℕ := 0
  deriving DecidableEq

/-- A pipe's page, with the number of times it has been given to `kfree`. -/
structure Pipe where
  readopen : Bool := false
  writeopen : Bool := false
  freed : ℕ := 0
  deriving DecidableEq

/-- The states of a process as far as its descriptors are concerned: a slot of `proc` that is free, that `fork` is filling, that runs, and that has exited. -/
inductive ProcState where
  | unused
  | used
  | running
  | zombie
  deriving DecidableEq

abbrev Table (k m : ℕ) := Fin k → Option (Fin m)

/-- The memory that the calls share. Pages of pipes are numbered in the order in which `kalloc` hands them out, so a number stands for one life of a page. -/
structure Kernel (n k m : ℕ) where
  ftable : Fin m → File
  ofile : Fin n → Table k m
  state : Fin n → ProcState
  pipes : ℕ → Pipe
  pages : ℕ

inductive Panic where
  | filedup
  | fileclose
  | initExiting
  deriving DecidableEq

variable {n k m : ℕ}

namespace Kernel

def setFile (s : Kernel n k m) (f : Fin m) (file : File) : Kernel n k m := { s with ftable := update s.ftable f file }

def setPipe (s : Kernel n k m) (pi : ℕ) (pipe : Pipe) : Kernel n k m := { s with pipes := update s.pipes pi pipe }

def setOfile (s : Kernel n k m) (p : Fin n) (fd : Fin k) (f : Option (Fin m)) : Kernel n k m :=
  { s with ofile := update s.ofile p (update (s.ofile p) fd f) }

def setState (s : Kernel n k m) (p : Fin n) (state : ProcState) : Kernel n k m := { s with state := update s.state p state }

end Kernel

abbrev Sys (n k m : ℕ) := Threads.Code (Kernel n k m) Panic

/-! ### `file.c` and `pipe.c` -/

/-- `filealloc`: take the first entry that nothing refers to. Its other fields are as the last user left them. -/
def filealloc : Sys n k m (Option (Fin m)) := .atom fun s =>
  match (List.finRange m).find? fun f => (s.ftable f).ref = 0 with
  | none => .done none s
  | some f => .done (some f) (s.setFile f { s.ftable f with ref := 1 })

def filedup (f : Fin m) : Sys n k m Unit := .atom fun s =>
  if (s.ftable f).ref < 1 then .panic .filedup else .done () (s.setFile f { s.ftable f with ref := (s.ftable f).ref + 1 })

/-- `kalloc` for a pipe, with the first writes to the page, which no other process can see yet. -/
def kalloc (memory : Bool) : Sys n k m (Option ℕ) := .atom fun s =>
  if memory then .done (some s.pages) { s.setPipe s.pages { readopen := true, writeopen := true } with pages := s.pages + 1 } else .done none s

def kfree (pi : ℕ) : Sys n k m Unit := .write fun s => s.setPipe pi { s.pipes pi with freed := (s.pipes pi).freed + 1 }

def Pipe.shut (pipe : Pipe) (writable : Bool) : Pipe :=
  if writable then { pipe with writeopen := false } else { pipe with readopen := false }

/-- `pipeclose`: the page is freed after the pipe's lock has been released. -/
def pipeclose (pi : ℕ) (writable : Bool) : Sys n k m Unit := do
  let last ← Threads.Code.atom fun s =>
    let pipe := (s.pipes pi).shut writable
    .done (!pipe.readopen && !pipe.writeopen) (s.setPipe pi pipe)
  if last then kfree pi

/-- The section of `fileclose` under `ftable.lock`. It returns a copy of the entry when the last reference goes. -/
def fileclose.drop (f : Fin m) : Sys n k m (Option File) := .atom fun s =>
  if (s.ftable f).ref < 1 then .panic .fileclose
  else
    let ff := { s.ftable f with ref := (s.ftable f).ref - 1 }
    if ff.ref > 0 then .done none (s.setFile f ff)
    else .done (some ff) (s.setFile f { ff with ref := 0, type := .none })

/-- `fileclose`. The `iput` of an inode touches neither table. -/
def fileclose (f : Fin m) : Sys n k m Unit := do
  match ← fileclose.drop f with
  | none => pure ()
  | some ff => if ff.type = .pipe then pipeclose ff.pipe ff.writable

def fill (f : Fin m) (change : File → File) : Sys n k m Unit := .write fun s => s.setFile f (change (s.ftable f))

/-- The `bad` exit of `pipealloc`. The page is never allocated there: `kalloc` is the last thing to fail. -/
def pipealloc.bad (f0 f1 : Option (Fin m)) : Sys n k m (Option (Fin m × Fin m)) := do
  match f0 with
  | none => pure ()
  | some f => fileclose f
  match f1 with
  | none => pure ()
  | some f => fileclose f
  pure none

def pipealloc (memory : Bool) : Sys n k m (Option (Fin m × Fin m)) := do
  match ← filealloc with
  | none => pipealloc.bad none none
  | some f0 =>
    match ← filealloc with
    | none => pipealloc.bad (some f0) none
    | some f1 =>
      match ← kalloc memory with
      | none => pipealloc.bad (some f0) (some f1)
      | some pi =>
        fill f0 fun file => { file with type := .pipe, readable := true, writable := false, pipe := pi }
        fill f1 fun file => { file with type := .pipe, readable := false, writable := true, pipe := pi }
        pure (some (f0, f1))

/-! ### `sysfile.c` -/

def argfd (p : Fin n) (fd : ℤ) : Sys n k m (Option (Fin k × Fin m)) := .read fun s =>
  if h : 0 ≤ fd ∧ fd < k then (s.ofile p ⟨fd.toNat, (Int.toNat_lt h.1).mpr h.2⟩).map fun f => (⟨fd.toNat, (Int.toNat_lt h.1).mpr h.2⟩, f)
  else none

def fdalloc (p : Fin n) (f : Fin m) : Sys n k m (Option (Fin k)) := .atom fun s =>
  match (List.finRange k).find? fun fd => s.ofile p fd = none with
  | none => .done none s
  | some fd => .done (some fd) (s.setOfile p fd (some f))

def setSlot (p : Fin n) (fd : Fin k) (f : Option (Fin m)) : Sys n k m Unit := .write fun s => s.setOfile p fd f

/-- `sys_dup`. The slot is taken before the reference. -/
def sysDup (p : Fin n) (fd : ℤ) : Sys n k m ℤ := do
  match ← argfd p fd with
  | none => pure (-1)
  | some (_, f) =>
    match ← fdalloc p f with
    | none => pure (-1)
    | some fd =>
      filedup f
      pure (fd.val : ℤ)

def sysClose (p : Fin n) (fd : ℤ) : Sys n k m ℤ := do
  match ← argfd p fd with
  | none => pure (-1)
  | some (fd, f) =>
    setSlot p fd none
    fileclose f
    pure 0

/-- What the path of `open` leads to: a device or another inode. -/
inductive Target where
  | device
  | inode
  deriving DecidableEq

def Target.type : Target → FdType
  | .device => .device
  | .inode => .inode

def oWronly : BitVec 32 := 1

def oRdwr : BitVec 32 := 2

/-- `sys_open`. The target is `none` where the path does not lead to an inode that can be opened. -/
def sysOpen (p : Fin n) (target : Option Target) (omode : BitVec 32) : Sys n k m ℤ := do
  match target with
  | none => pure (-1)
  | some target =>
    match ← filealloc with
    | none => pure (-1)
    | some f =>
      match ← fdalloc p f with
      | none =>
        fileclose f
        pure (-1)
      | some fd =>
        fill f fun file =>
          { file with type := target.type, readable := omode &&& oWronly = 0, writable := omode &&& oWronly ≠ 0 ∨ omode &&& oRdwr ≠ 0 }
        pure (fd.val : ℤ)

/-- `sys_pipe`, with the outcome of the two calls of `copyout`. -/
def sysPipe (p : Fin n) (memory copyout0 copyout1 : Bool) : Sys n k m ℤ := do
  match ← pipealloc memory with
  | none => pure (-1)
  | some (rf, wf) =>
    match ← fdalloc p rf with
    | none =>
      fileclose rf
      fileclose wf
      pure (-1)
    | some fd0 =>
      match ← fdalloc p wf with
      | none =>
        setSlot p fd0 none
        fileclose rf
        fileclose wf
        pure (-1)
      | some fd1 =>
        if copyout0 && copyout1 then pure 0
        else
          setSlot p fd0 none
          setSlot p fd1 none
          fileclose rf
          fileclose wf
          pure (-1)

/-! ### `proc.c` -/

/-- `allocproc`: the first free slot, unless there is no memory for its pages. -/
def allocproc (memory : Bool) : Sys n k m (Option (Fin n)) := .atom fun s =>
  match (List.finRange n).find? fun q => s.state q = .unused with
  | none => .done none s
  | some q => if memory then .done (some q) (s.setState q .used) else .done none s

def putState (q : Fin n) (state : ProcState) : Sys n k m Unit := .write fun s => s.setState q state

/-- The loop of `fork` over the parent's descriptors. -/
def fork.dupAll (p q : Fin n) : List (Fin k) → Sys n k m Unit
  | [] => pure ()
  | i :: rest => do
    match ← Threads.Code.read fun s => s.ofile p i with
    | none => pure ()
    | some f =>
      filedup f
      setSlot q i (some f)
    dupAll p q rest

/-- `fork`. The number of the child's slot stands for its pid. -/
def fork (p : Fin n) (memory uvmcopy : Bool) : Sys n k m ℤ := do
  match ← allocproc memory with
  | none => pure (-1)
  | some q =>
    if uvmcopy then
      fork.dupAll p q (List.finRange k)
      putState q .running
      pure (q.val : ℤ)
    else
      putState q .unused
      pure (-1)

/-- The loop of `exit` over the descriptors. A slot is cleared after its entry has been closed. -/
def exit.closeAll (p : Fin n) : List (Fin k) → Sys n k m Unit
  | [] => pure ()
  | fd :: rest => do
    match ← Threads.Code.read fun s => s.ofile p fd with
    | none => pure ()
    | some f =>
      fileclose f
      setSlot p fd none
    closeAll p rest

/-- `exit`. The first process of the table is `initproc`. -/
def exit (p : Fin n) : Sys n k m ℤ := do
  Threads.Code.atom fun s => if p.val = 0 then .panic .initExiting else .done () s
  exit.closeAll p (List.finRange k)
  putState p .zombie
  pure 0

/-- What `wait` does to a slot: a child that has exited gives it back. -/
def wait (q : Fin n) : Sys n k m ℤ := .atom fun s =>
  if s.state q = .zombie then .done (q.val : ℤ) (s.setState q .unused) else .done (-1) s

/-! ### Runs -/

inductive Call (n : ℕ) where
  | open (target : Option Target) (omode : BitVec 32)
  | dup (fd : ℤ)
  | pipe (memory copyout0 copyout1 : Bool)
  | close (fd : ℤ)
  | fork (memory uvmcopy : Bool)
  | exit
  | wait (q : Fin n)
  deriving DecidableEq

def program (p : Fin n) : Call n → Sys n k m ℤ
  | .open target omode => sysOpen p target omode
  | .dup fd => sysDup p fd
  | .pipe memory copyout0 copyout1 => sysPipe p memory copyout0 copyout1
  | .close fd => sysClose p fd
  | .fork memory uvmcopy => fork p memory uvmcopy
  | .exit => exit p
  | .wait q => wait q

def enabled (s : Kernel n k m) (p : Fin n) (_ : Call n) : Bool := s.state p = .running

abbrev System (n k m : ℕ) := Pool (Fin n) (Kernel n k m) Panic ℤ

/-- A process makes a call, or runs the next action of the one it is in. -/
def System.next (x : System n k m) (e : Event (Fin n) (Call n)) : Option (System n k m) := Pool.next program enabled x e

structure System.Init (x : System n k m) : Prop where
  ftable : ∀ f, x.shared.ftable f = {}
  ofile : ∀ p fd, x.shared.ofile p fd = none
  state : ∀ p, x.shared.state p = .unused ∨ x.shared.state p = .running
  pipes : ∀ pi, x.shared.pipes pi = {}
  pages : x.shared.pages = 0
  returned : ∀ p, x.Returned p

end AdvancedXv6.FileTable
