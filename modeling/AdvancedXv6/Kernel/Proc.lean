import AdvancedXv6.Kernel.Vm

/-!
# Processes

The parts of `kernel/proc.c` and `kernel/exec.c` that build, change and give up address spaces. An entry of the process table is a value; a function of the kernel that changes it returns the changed entry. An unused entry has null pointers and size zero, as `freeproc` leaves it. What the kernel keeps in the trap frame is left out, except that the saved stack pointer, which `handle_page_fault` looks at, is an argument.
-/

namespace AdvancedXv6.Kernel

open Prog

/-- The states of a process. A process that the scheduler may run, is running or has put to sleep is `runnable`. -/
inductive ProcState where
  | unused
  | used
  | runnable
  | zombie
  deriving DecidableEq, Repr

structure Proc where
  state : ProcState
  pagetable : ℕ
  trapframe : ℕ
  sz : ℕ
  deriving DecidableEq, Repr

def Proc.empty : Proc := { state := .unused, pagetable := 0, trapframe := 0, sz := 0 }

/-! ### Address spaces of processes -/

def procPagetable (trapframe : ℕ) : KernelM ℕ := do
  let pagetable ← uvmcreate
  if pagetable = 0 then
    pure 0
  else do
    let r ← mappages pagetable trampolineVa pgsize trampolinePa (pteR ||| pteX)
    if r < 0 then do
      uvmfree pagetable 0
      pure 0
    else do
      let r ← mappages pagetable trapframeVa pgsize trapframe (pteR ||| pteW)
      if r < 0 then do
        uvmunmap pagetable trampolineVa 1 false
        uvmfree pagetable 0
        pure 0
      else
        pure pagetable

def procFreepagetable (pagetable sz : ℕ) : KernelM Unit := do
  uvmunmap pagetable trampolineVa 1 false
  uvmunmap pagetable trapframeVa 1 false
  uvmfree pagetable sz

def freeproc (p : Proc) : KernelM Proc := do
  if p.trapframe ≠ 0 then kfree p.trapframe else pure ()
  if p.pagetable ≠ 0 then procFreepagetable p.pagetable p.sz else pure ()
  pure Proc.empty

/-- `allocproc`, from the point where it has found the unused entry `p`. -/
def allocproc (p : Proc) : KernelM (Option Proc) := do
  let trapframe ← kalloc
  if trapframe = 0 then do
    let _ ← freeproc { p with state := .used, trapframe := 0 }
    pure none
  else do
    let pagetable ← procPagetable trapframe
    if pagetable = 0 then do
      let _ ← freeproc { p with state := .used, trapframe, pagetable := 0 }
      pure none
    else
      pure (some { p with state := .used, trapframe, pagetable })

def initcode : List (BitVec 8) :=
  [0x17, 0x05, 0x00, 0x00, 0x13, 0x05, 0x45, 0x02, 0x97, 0x05, 0x00, 0x00, 0x93, 0x85, 0x35, 0x02,
    0x93, 0x08, 0x70, 0x00, 0x73, 0x00, 0x00, 0x00, 0x93, 0x08, 0x20, 0x00, 0x73, 0x00, 0x00, 0x00,
    0xef, 0xf0, 0x9f, 0xff, 0x2f, 0x69, 0x6e, 0x69, 0x74, 0x00, 0x00, 0x24, 0x00, 0x00, 0x00, 0x00,
    0x00, 0x00, 0x00, 0x00]

def userinit (p : Proc) : KernelM Proc := do
  match ← allocproc p with
  | none => panic .kerneltrap
  | some p => do
    uvmfirst p.pagetable initcode
    pure { p with sz := pgsize, state := .runnable }

/-- The size of a process after it asks for `n` bytes more, as the 64-bit addition gives it. -/
def addSize (sz : ℕ) (n : ℤ) : ℕ := ((sz + n) % 2 ^ 64).toNat

def growproc (p : Proc) (n : ℤ) : KernelM (Proc × ℤ) :=
  if 0 < n then do
    let sz ← uvmalloc p.pagetable p.sz (addSize p.sz n) pteW
    if sz = 0 then
      pure (p, -1)
    else
      pure ({ p with sz }, 0)
  else if n < 0 then do
    let sz ← uvmdealloc p.pagetable p.sz (addSize p.sz n)
    pure ({ p with sz }, 0)
  else
    pure (p, 0)

def fork (p np : Proc) : KernelM (Proc × ℤ) := do
  match ← allocproc np with
  | none => pure (Proc.empty, -1)
  | some np => do
    let r ← uvmcopy p.pagetable np.pagetable p.sz
    if r < 0 then do
      let np ← freeproc np
      pure (np, -1)
    else
      pure ({ np with sz := p.sz, state := .runnable }, 0)

/-! ### `exec` -/

/-- A file, as `readi` sees it. -/
structure Inode where
  contents : List (BitVec 8)

def Inode.readi (ip : Inode) (off n : ℕ) : List (BitVec 8) := (ip.contents.drop off).take n

def leNat (bytes : List (BitVec 8)) : ℕ := bytes.foldr (fun b rest => b.toNat + 256 * rest) 0

def leBytes (n : ℕ) : List (BitVec 8) := (List.range 8).map fun i => BitVec.ofNat 8 (n / 256 ^ i)

def field (bytes : List (BitVec 8)) (off n : ℕ) : ℕ := leNat ((bytes.drop off).take n)

def elfMagic : ℕ := 0x464C457F

def elfhdrSize : ℕ := 64

def proghdrSize : ℕ := 56

structure Proghdr where
  type : ℕ
  flags : ℕ
  off : ℕ
  vaddr : ℕ
  filesz : ℕ
  memsz : ℕ

def Proghdr.decode (bytes : List (BitVec 8)) : Proghdr where
  type := field bytes 0 4
  flags := field bytes 4 4
  off := field bytes 8 8
  vaddr := field bytes 16 8
  filesz := field bytes 32 8
  memsz := field bytes 40 8

def flags2perm (flags : ℕ) : Pte :=
  (if flags.testBit 0 then pteX else 0) ||| if flags.testBit 1 then pteW else 0

def loadsegPage (pagetable va : ℕ) (ip : Inode) (offset sz i : ℕ) : KernelM (Option ℤ) := do
  let pa ← walkaddr pagetable (va + i)
  if pa = 0 then
    panic .loadseg
  else do
    let n := min (sz - i) pgsize
    let bytes := ip.readi ((offset + i) % 2 ^ 32) n
    memmoveIn pa bytes
    if bytes.length ≠ n then pure (some (-1)) else pure none

/-- `loadseg`. The offset and the size are `uint`s. -/
def loadseg (pagetable va : ℕ) (ip : Inode) (offset sz : ℕ) : KernelM ℤ := do
  let result ← loop pgsize (loadsegPage pagetable va ip (offset % 2 ^ 32) (sz % 2 ^ 32)) ((sz % 2 ^ 32 + pgsize - 1) / pgsize) 0
  pure (result.getD 0)

/-- The loop over the program headers, with the size reached so far. The flag says whether all of them could be loaded. -/
def loadProgram (ip : Inode) (pagetable : ℕ) : ℕ → ℕ → ℕ → KernelM (ℕ × Bool)
  | 0, _, sz => pure (sz, true)
  | n + 1, off, sz => do
    let bytes := ip.readi off proghdrSize
    let ph := Proghdr.decode bytes
    if bytes.length ≠ proghdrSize then
      pure (sz, false)
    else if ph.type ≠ 1 then
      loadProgram ip pagetable n ((off + proghdrSize) % 2 ^ 32) sz
    else if ph.memsz < ph.filesz then
      pure (sz, false)
    else if (ph.vaddr + ph.memsz) % 2 ^ 64 < ph.vaddr then
      pure (sz, false)
    else if ph.vaddr % pgsize ≠ 0 then
      pure (sz, false)
    else do
      let sz1 ← uvmalloc pagetable sz ((ph.vaddr + ph.memsz) % 2 ^ 64) (flags2perm ph.flags)
      if sz1 = 0 then
        pure (sz, false)
      else do
        let r ← loadseg pagetable ph.vaddr ip ph.off ph.filesz
        if r < 0 then
          pure (sz1, false)
        else
          loadProgram ip pagetable n ((off + proghdrSize) % 2 ^ 32) sz1

def maxarg : ℕ := 32

def lowerSp (sp n : ℕ) : ℕ :=
  let sp := (sp + 2 ^ 64 - n) % 2 ^ 64
  sp - sp % 16

/-- The loop that pushes the argument strings: the stack pointer and the addresses of the strings, or nothing after a failure. -/
def pushArgs (frameSp pagetable stackbase : ℕ) : List (List (BitVec 8)) → ℕ → List ℕ → KernelM (Option (ℕ × List ℕ))
  | [], sp, ustack => pure (some (sp, ustack))
  | arg :: rest, sp, ustack =>
    if maxarg ≤ ustack.length then
      pure none
    else if lowerSp sp (arg.length + 1) < stackbase then
      pure none
    else do
      let r ← copyout frameSp pagetable (lowerSp sp (arg.length + 1)) (arg ++ [0])
      if r < 0 then
        pure none
      else
        pushArgs frameSp pagetable stackbase rest (lowerSp sp (arg.length + 1)) (ustack ++ [lowerSp sp (arg.length + 1)])

/-- Push the strings and the array of their addresses. -/
def pushStack (frameSp pagetable sz : ℕ) (argv : List (List (BitVec 8))) : KernelM (Option ℕ) := do
  match ← pushArgs frameSp pagetable (sz - pgsize) argv sz [] with
  | none => pure none
  | some (sp, ustack) => do
    let sp := lowerSp sp ((ustack.length + 1) * 8)
    if sp < sz - pgsize then
      pure none
    else do
      let r ← copyout frameSp pagetable sp ((ustack ++ [0]).flatMap leBytes)
      if r < 0 then pure none else pure (some ustack.length)

/-- Two pages at the end of the image, the first of them without user access, and the arguments on the second. The size of the image is returned with the number of arguments, or nothing after a failure. -/
def makeStack (frameSp pagetable sz : ℕ) (argv : List (List (BitVec 8))) : KernelM (ℕ × Option ℕ) := do
  let sz1 ← uvmalloc pagetable (pgroundup sz) (pgroundup sz + 2 * pgsize) pteW
  if sz1 = 0 then
    pure (pgroundup sz, none)
  else do
    uvmclear pagetable (sz1 - 2 * pgsize)
    let argc ← pushStack frameSp pagetable sz1 argv
    pure (sz1, argc)

def makeImage (frameSp pagetable : ℕ) (ip : Inode) (argv : List (List (BitVec 8))) : KernelM (ℕ × Option ℕ) := do
  let elf := ip.readi 0 elfhdrSize
  let (sz, ok) ← loadProgram ip pagetable (field elf 56 2) (field elf 32 8 % 2 ^ 32) 0
  if ok then makeStack frameSp pagetable sz argv else pure (sz, none)

/-- `exec` by the process `p`, whose trap frame has the stack pointer `frameSp`. There is no inode if the path leads nowhere. -/
def exec (frameSp : ℕ) (p : Proc) (ip : Option Inode) (argv : List (List (BitVec 8))) : KernelM (Proc × ℤ) :=
  match ip with
  | none => pure (p, -1)
  | some ip =>
    let elf := ip.readi 0 elfhdrSize
    if elf.length ≠ elfhdrSize then
      pure (p, -1)
    else if field elf 0 4 ≠ elfMagic then
      pure (p, -1)
    else do
      let pagetable ← procPagetable p.trapframe
      if pagetable = 0 then
        pure (p, -1)
      else do
        match ← makeImage frameSp pagetable ip argv with
        | (sz, none) => do
          procFreepagetable pagetable sz
          pure (p, -1)
        | (sz, some argc) => do
          procFreepagetable p.pagetable p.sz
          pure ({ p with pagetable, sz }, argc)

end AdvancedXv6.Kernel
