import AdvancedXv6.Kernel.Kalloc

/-!
# Page tables

`kernel/vm.c` and the page-fault handler of `kernel/trap.c`, function by function. A pointer to a page-table entry is a page and an index; a null pointer is `none`. A loop over pages is `Prog.loop`, with the number of rounds that the test of the C loop allows. The saved user stack pointer, which the handler reads from the trap frame of the current process, is an argument.
-/

namespace AdvancedXv6.Kernel

open Prog

structure PtePtr where
  page : ℕ
  index : Fin 512
  deriving DecidableEq, Repr

def readPte (q : PtePtr) : KernelM Pte := do
  let k ← get
  pure (k.mem q.page q.index)

def KState.write (k : KState) (q : PtePtr) (pte : Pte) : KState := { k with mem := writeWord k.mem q.page q.index pte }

def writePte (q : PtePtr) (pte : Pte) : KernelM Unit := modify fun k => k.write q pte

/-! ### Bytes -/

def Page.byte (page : Page) (offset : ℕ) : BitVec 8 :=
  (page ⟨offset / 8 % 512, Nat.mod_lt _ (by decide)⟩).extractLsb' (8 * (offset % 8)) 8

def setByte (word : BitVec 64) (i : ℕ) (b : BitVec 8) : BitVec 64 :=
  (word &&& ~~~(0xFF#64 <<< (8 * i))) ||| (b.setWidth 64 <<< (8 * i))

def Page.setByte (page : Page) (offset : ℕ) (b : BitVec 8) : Page :=
  let i : Fin 512 := ⟨offset / 8 % 512, Nat.mod_lt _ (by decide)⟩
  Function.update page i (Kernel.setByte (page i) (offset % 8) b)

def Page.setBytes (page : Page) : ℕ → List (BitVec 8) → Page
  | _, [] => page
  | offset, b :: rest => Page.setBytes (Page.setByte page offset b) (offset + 1) rest

/-- `memmove` of bytes from outside into the page at an address. -/
def memmoveIn (pa : ℕ) (bytes : List (BitVec 8)) : KernelM Unit := do
  let k ← get
  setPage pa (Page.setBytes (k.mem (pa / pgsize)) (pa % pgsize) bytes)

def memmovePage (dst src : ℕ) : KernelM Unit := do
  let k ← get
  setPage dst (k.mem (src / pgsize))

/-! ### Walking -/

/-- The rest of the loop of `walk`, from a level on. -/
def walkFrom (va : ℕ) (alloc : Bool) : ℕ → ℕ → KernelM (Option PtePtr)
  | 0, pagetable => pure (some ⟨pagetable / pgsize, px 0 va⟩)
  | level + 1, pagetable => do
    let q : PtePtr := ⟨pagetable / pgsize, px (level + 1) va⟩
    let pte ← readPte q
    if pte.has pteV then
      walkFrom va alloc level (pte2pa pte)
    else if alloc then do
      let child ← kalloc
      if child = 0 then
        pure none
      else do
        memset child 0
        writePte q (pa2pte child ||| pteV)
        walkFrom va alloc level child
    else
      pure none

def walk (pagetable va : ℕ) (alloc : Bool) : KernelM (Option PtePtr) :=
  if maxva ≤ va then panic .walk else walkFrom va alloc 2 pagetable

def walkaddr (pagetable va : ℕ) : KernelM ℕ :=
  if maxva ≤ va then
    pure 0
  else do
    match ← walk pagetable va false with
    | none => pure 0
    | some q => do
      let pte ← readPte q
      if !pte.has pteV then
        pure 0
      else if !pte.has pteU then
        pure 0
      else
        pure (pte2pa pte)

/-! ### Mapping and unmapping -/

def mappages (pagetable va size pa : ℕ) (perm : Pte) : KernelM ℤ :=
  if size = 0 then
    panic .mappagesSize
  else do
    let first := pgrounddown va
    let last := pgrounddown ((va + size - 1) % 2 ^ 64)
    let result ← loop pgsize (fun a => do
        match ← walk pagetable a true with
        | none => pure (some (-1))
        | some q => do
          let pte ← readPte q
          if pte.has pteV then
            panic .mappagesRemap
          else do
            writePte q (pa2pte (pa + (a - first)) ||| perm ||| pteV)
            pure none)
      ((last + 2 ^ 64 - first) % 2 ^ 64 / pgsize + 1) first
    pure (result.getD 0)

def uvmunmapPage (pagetable : ℕ) (doFree : Bool) (a : ℕ) : KernelM (Option Unit) := do
  match ← walk pagetable a false with
  | none => panic .uvmunmapWalk
  | some q => do
    let pte ← readPte q
    if !pte.has pteV then
      panic .uvmunmapNotMapped
    else if pteFlags pte = pteV then
      panic .uvmunmapNotLeaf
    else do
      if doFree then kfree (pte2pa pte) else pure ()
      writePte q 0
      pure none

def uvmunmap (pagetable va npages : ℕ) (doFree : Bool) : KernelM Unit :=
  if va % pgsize ≠ 0 then
    panic .uvmunmapAligned
  else do
    let last := (va + npages * pgsize) % 2 ^ 64
    let _ ← loop pgsize (uvmunmapPage pagetable doFree) ((last - va + pgsize - 1) / pgsize) va
    pure ()

def uvmcreate : KernelM ℕ := do
  let pagetable ← kalloc
  if pagetable = 0 then
    pure 0
  else do
    memset pagetable 0
    pure pagetable

/-- `uvmfirst`. Without memory for the page it writes through a null pointer. -/
def uvmfirst (pagetable : ℕ) (src : List (BitVec 8)) : KernelM Unit :=
  if pgsize ≤ src.length then
    panic .uvmfirst
  else do
    let mem ← kalloc
    if mem = 0 then
      panic .kerneltrap
    else do
      memset mem 0
      let _ ← mappages pagetable 0 pgsize mem (pteW ||| pteR ||| pteX ||| pteU)
      memmoveIn mem src

def uvmdealloc (pagetable oldsz newsz : ℕ) : KernelM ℕ :=
  if oldsz ≤ newsz then
    pure oldsz
  else do
    if pgroundup newsz < pgroundup oldsz then do
      let npages := toInt32 (((pgroundup oldsz - pgroundup newsz) / pgsize : ℕ) : ℤ)
      uvmunmap pagetable (pgroundup newsz) (npages % 2 ^ 64).toNat true
    else
      pure ()
    pure newsz

def uvmallocPage (pagetable start : ℕ) (xperm : Pte) (a : ℕ) : KernelM (Option ℕ) := do
  let mem ← kalloc
  if mem = 0 then do
    let _ ← uvmdealloc pagetable a start
    pure (some 0)
  else do
    memset mem 0
    let r ← mappages pagetable a pgsize mem (pteR ||| pteU ||| xperm)
    if r ≠ 0 then do
      kfree mem
      let _ ← uvmdealloc pagetable a start
      pure (some 0)
    else
      pure none

def uvmalloc (pagetable oldsz newsz : ℕ) (xperm : Pte) : KernelM ℕ :=
  if newsz < oldsz then
    pure oldsz
  else do
    let start := pgroundup oldsz
    let result ← loop pgsize (uvmallocPage pagetable start xperm) ((newsz - start + pgsize - 1) / pgsize) start
    pure (result.getD newsz)

/-- The body of the loop of `freewalk`, for a recursive call `free`. A valid entry without the flags of a leaf leads to the next level. -/
def freewalkEntry (free : ℕ → KernelM Unit) (pagetable i : ℕ) : KernelM (Option Unit) := do
  let q : PtePtr := ⟨pagetable / pgsize, Fin.ofNat 512 i⟩
  let pte ← readPte q
  if pte.has pteV && pte &&& (pteR ||| pteW ||| pteX) == 0 then do
    free (pte2pa pte)
    writePte q 0
    pure none
  else if pte.has pteV then
    panic .freewalkLeaf
  else
    pure none

/-- `freewalk`, down to a depth. -/
def freewalk : ℕ → ℕ → KernelM Unit
  | 0, _ => panic .freewalkDepth
  | depth + 1, pagetable => do
    let _ ← loop 1 (freewalkEntry (freewalk depth) pagetable) 512 0
    kfree pagetable

def uvmfree (pagetable sz : ℕ) : KernelM Unit := do
  if 0 < sz then
    uvmunmap pagetable 0 (pgroundup sz / pgsize) true
  else
    pure ()
  freewalk 3 pagetable

/-! ### Copy-on-write -/

/-- The entry that `uvmcopy` leaves in both page tables: a writable page becomes copy-on-write. -/
def shareFlags (flags : Pte) : Pte := if flags.has pteW then (flags &&& ~~~pteW) ||| pteC else flags

def uvmcopyPage (old new i : ℕ) : KernelM (Option ℤ) := do
  match ← walk old i false with
  | none => panic .uvmcopyPte
  | some q => do
    let pte ← readPte q
    if !pte.has pteV then
      panic .uvmcopyNotPresent
    else do
      let pa := pte2pa pte
      let flags := pteFlags pte
      let _ ← incrementAndGetPageReference pa
      if flags.has pteW then writePte q (pa2pte pa ||| shareFlags flags) else pure ()
      let r ← mappages new i pgsize pa (shareFlags flags)
      if r ≠ 0 then do
        uvmunmap new 0 (i / pgsize) true
        pure (some (-1))
      else
        pure none

def uvmcopy (old new sz : ℕ) : KernelM ℤ := do
  let result ← loop pgsize (uvmcopyPage old new) ((sz + pgsize - 1) / pgsize) 0
  pure (result.getD 0)

def uvmclear (pagetable va : ℕ) : KernelM Unit := do
  match ← walk pagetable va false with
  | none => panic .uvmclear
  | some q => do
    let pte ← readPte q
    writePte q (pte &&& ~~~pteU)

/-- `is_below_stack`: the address is within a page of the page boundary below the stack pointer. -/
def isBelowStack (sp faultingAddress : ℕ) : Bool :=
  (pgrounddown sp + 2 ^ 64 - pgsize) % 2 ^ 64 ≤ faultingAddress && faultingAddress ≤ pgrounddown sp

/-- `handle_page_fault`. The entry is read before the test for a null pointer. -/
def handlePageFault (sp faultingAddress pagetable : ℕ) : KernelM ℤ :=
  if maxva ≤ faultingAddress || isBelowStack sp faultingAddress then
    pure (-2)
  else do
    match ← walk pagetable faultingAddress false with
    | none => panic .kerneltrap
    | some q => do
      let pte ← readPte q
      let phyAddr := pte2pa pte
      if phyAddr = 0 then
        pure (-1)
      else do
        let flags := pteFlags pte
        if flags.has pteC then do
          let newMemory ← kalloc
          if newMemory = 0 then
            pure (-1)
          else do
            memmovePage newMemory phyAddr
            writePte q (pa2pte newMemory ||| ((flags ||| pteW) &&& ~~~pteC))
            kfree phyAddr
            pure 0
        else
          pure 0

/-- The body of the loop of `copyout`, for the page at `va0`: the copy into a page starts at `dstva` in the first one and at its beginning in the others. -/
def copyoutPage (sp pagetable dstva : ℕ) (src : List (BitVec 8)) (va0 : ℕ) : KernelM (Option ℤ) := do
  let pa0 ← walkaddr pagetable va0
  if pa0 = 0 then
    pure (some (-1))
  else do
    let pa0 ← do
      match ← walk pagetable va0 false with
      | none => panic .kerneltrap
      | some q => do
        let pte ← readPte q
        if (pteFlags pte).has pteC then do
          let _ ← handlePageFault sp va0 pagetable
          walkaddr pagetable va0
        else
          pure pa0
    if pa0 = 0 then
      panic .kerneltrap
    else do
      let here := max dstva va0
      memmoveIn (pa0 + (here - va0)) ((src.drop (here - dstva)).take (pgsize - (here - va0)))
      pure none

def copyout (sp pagetable dstva : ℕ) (src : List (BitVec 8)) : KernelM ℤ := do
  let first := pgrounddown dstva
  let result ← loop pgsize (copyoutPage sp pagetable dstva src)
    (if src = [] then 0 else (dstva - first + src.length + pgsize - 1) / pgsize) first
  pure (result.getD 0)

end AdvancedXv6.Kernel
