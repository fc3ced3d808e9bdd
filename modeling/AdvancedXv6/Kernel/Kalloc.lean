import AdvancedXv6.Kernel.Riscv
import AdvancedXv6.Lib.Program
import Mathlib.Logic.Function.Basic
import Mathlib.Algebra.Group.Int.Defs
import Mathlib.Algebra.GroupWithZero.Nat

/-!
# The page allocator

`kernel/kalloc.c`. The state is the physical memory, page by page, the head of the free list and the reference counts. A free page holds the address of the next one in its first word. The counts are C `int`s: the compiled increment wraps at `2^31`.

The parts of `kalloc` and `kfree` that run under a lock have their own names, so that they can also be the steps of several CPUs.
-/

namespace AdvancedXv6.Kernel

open Function

/-- A physical page, as 64-bit words: what it holds as a page-table page. -/
abbrev Page := Fin 512 → Pte

instance words_neZero : NeZero 512 := ⟨by decide⟩

/-- The panics of this part of the kernel, by function and reason. A read or write through a null pointer ends in `kerneltrap`. -/
inductive Panic where
  | decrementReference
  | incrementReference
  | kfree
  | walk
  | mappagesSize
  | mappagesRemap
  | uvmunmapAligned
  | uvmunmapWalk
  | uvmunmapNotMapped
  | uvmunmapNotLeaf
  | uvmfirst
  | freewalkLeaf
  | freewalkDepth
  | uvmcopyPte
  | uvmcopyNotPresent
  | uvmclear
  | loadseg
  | kerneltrap
  deriving DecidableEq, Repr

structure KState where
  mem : ℕ → Page
  freelist : ℕ
  pageRefCount : ℕ → ℤ

abbrev KernelM := Prog KState Panic

open Prog

/-! ### Memory -/

def repeatByte (c : BitVec 8) : BitVec 64 := BitVec.ofNat 64 (c.toNat * 0x0101010101010101)

def setPage (pa : ℕ) (page : Page) : KernelM Unit :=
  modify fun k => { k with mem := update k.mem (pa / pgsize) page }

def memset (pa : ℕ) (c : BitVec 8) : KernelM Unit := setPage pa fun _ => repeatByte c

def writeWord (mem : ℕ → Page) (page : ℕ) (i : Fin 512) (word : BitVec 64) : ℕ → Page :=
  update mem page (update (mem page) i word)

/-! ### Reference counts -/

/-- A C `int` after an operation that may have overflowed. -/
def toInt32 (z : ℤ) : ℤ := z.bmod (2 ^ 32)

def decrementAndGetPageReference (pa : ℕ) : KernelM ℤ := do
  let k ← get
  let pageIdx := pa / 2 ^ 12
  let refCount := k.pageRefCount pageIdx
  if refCount ≤ 0 then
    panic .decrementReference
  else do
    set { k with pageRefCount := update k.pageRefCount pageIdx (refCount - 1) }
    pure (refCount - 1)

def incrementAndGetPageReference (pa : ℕ) : KernelM ℤ := do
  let k ← get
  let pageIdx := pa / 2 ^ 12
  let refCount := k.pageRefCount pageIdx
  if refCount < 0 then
    panic .incrementReference
  else do
    set { k with pageRefCount := update k.pageRefCount pageIdx (toInt32 (refCount + 1)) }
    pure (toInt32 (refCount + 1))

/-! ### Allocation -/

/-- The part of `kfree` under `kmem.lock`: `r->next = kmem.freelist; kmem.freelist = r`. -/
def kfreePush (pa : ℕ) : KernelM Unit :=
  modify fun k => { k with
    mem := writeWord k.mem (pa / pgsize) 0 (BitVec.ofNat 64 k.freelist)
    freelist := pa }

/-- The beginning of `kfree`: the test of the address, and the part under `refcntmgr.lock`. -/
def kfreeDrop (pa : ℕ) : KernelM ℤ :=
  if pa % pgsize ≠ 0 ∨ pa < kernelEnd ∨ phystop ≤ pa then
    panic .kfree
  else
    decrementAndGetPageReference pa

def kfree (pa : ℕ) : KernelM Unit := do
  let refCount ← kfreeDrop pa
  if 0 < refCount then
    pure ()
  else do
    memset pa 1
    kfreePush pa

/-- The part of `kalloc` under `kmem.lock`: take the first page, if there is one, and count the reference to it. -/
def kallocPop : KernelM ℕ := do
  let k ← get
  let r := k.freelist
  if r = 0 then
    pure 0
  else do
    set { k with freelist := (k.mem (r / pgsize) 0).toNat }
    let _ ← incrementAndGetPageReference r
    pure r

def kalloc : KernelM ℕ := do
  let r ← kallocPop
  if r = 0 then
    pure 0
  else do
    memset r 5
    pure r

def freerange (paStart paEnd : ℕ) : KernelM Unit := do
  let _ ← loop (β := Unit) pgsize (fun p => do
      let _ ← incrementAndGetPageReference p
      kfree p
      pure none)
    ((paEnd - pgroundup paStart) / pgsize) (pgroundup paStart)
  pure ()

def initializePageReferenceCount : KernelM Unit := modify fun k => { k with pageRefCount := fun _ => 0 }

def kinit : KernelM Unit := do
  initializePageReferenceCount
  freerange kernelEnd phystop

/-- The machine before `kinit`: any memory, and `kmem` as the loader leaves it. -/
def boot (mem : ℕ → Page) : KState := { mem, freelist := 0, pageRefCount := fun _ => 0 }

end AdvancedXv6.Kernel
