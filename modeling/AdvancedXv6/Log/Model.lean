import AdvancedXv6.Lib.Transition
import Mathlib.Data.Finset.Dedup
import Mathlib.Data.Finset.Card

/-!
# The log

`kernel/log.c`, with the parts of `kernel/bio.c` that it rests on. The disk has the header block of the log, the blocks of the log behind it, and the blocks at home. A step of the model is one critical section of `begin_op`, `log_write` or `end_op`, or one disk write of `commit` or `recover_from_log` with the reads before it, or a move of the buffer cache. A crash may come between any two steps; it leaves the disk and nothing else.

A buffer is locked from `bread` to `brelse`, so that reading a block, changing it and calling `log_write` is one step of the process that does it. A buffer that nobody uses may be given to another block at any time, unless it is pinned.

Header blocks hold numbers and the others hold values of a type `V`. Blocks of the log are not among the blocks that operations write.
-/

namespace AdvancedXv6.Log

open Function

def maxOpBlocks : ℕ := 10

def logSize : ℕ := maxOpBlocks * 3

/-- `log.size`: `mkfs` writes `nlog = LOGSIZE` into the super block. It counts the header block. -/
def nlog : ℕ := logSize

/-- `struct logheader`. Entries from `n` on are stale. -/
structure Header where
  n : ℕ
  block : ℕ → ℕ

def Header.blocks (lh : Header) : List ℕ := (List.range lh.n).map lh.block

/-- The loop of `log_write` that looks for a block in the header. It ends at `n` if the block is not there. -/
def Header.find (lh : Header) (b : ℕ) : ℕ := ((List.range lh.n).find? fun i => lh.block i = b).getD lh.n

structure Disk (V : Type) where
  header : Header
  /-- The blocks from `log.start + 1` on. -/
  slots : ℕ → V
  home : ℕ → V

inductive Panic where
  | tooBig
  | outside
  | committing
  deriving DecidableEq

/-- Where the code of `commit` or of `recover_from_log` is, if one of them runs. -/
inductive Pc where
  | running
  | commit
  | writeLog (tail : ℕ)
  | writeHead
  | installTrans (tail : ℕ)
  | clearHead
  | readHead
  | recoverTrans (tail : ℕ)
  | recoverHead
  | panicked (panic : Panic)
  deriving DecidableEq

/-- A block written by an operation. Operations are numbered in the order in which they begin. -/
structure Write (V : Type) where
  op : ℕ
  block : ℕ
  value : V

/-- The disk, the memory of the kernel, and a record of what the operations have written. -/
structure System (n : ℕ) (V : Type) where
  disk : Disk V
  cache : ℕ → Option V
  /-- The references to a buffer by `bpin`. -/
  pins : ℕ → ℕ
  lh : Header
  outstanding : ℕ
  committing : Bool
  pc : Pc
  /-- The operation that each process is in. -/
  ops : Fin n → Option ℕ
  nextOp : ℕ
  /-- What the operations have written since the last commit. -/
  pending : List (Write V)
  /-- What has been committed, in groups. A group is committed when the header is written. -/
  groups : List (List (Write V))
  /-- Everything that has ever been written, also what was lost. -/
  written : List (Write V)

inductive Action (n : ℕ) (V : Type) where
  | beginOp (p : Fin n)
  | logWrite (p : Fin n) (b : ℕ) (v : V)
  | endOp (p : Fin n)
  | read (b : ℕ)
  | evict (b : ℕ)
  | advance
  | crash

variable {n : ℕ} {V : Type}

/-! ### Buffers -/

def System.bread (s : System n V) (b : ℕ) : V := (s.cache b).getD (s.disk.home b)

/-! ### Operations -/

def System.beginOp (s : System n V) (p : Fin n) : Option (System n V) :=
  if s.committing ∨ s.lh.n + (s.outstanding + 1) * maxOpBlocks > logSize then
    none
  else
    some { s with outstanding := s.outstanding + 1, ops := update s.ops p (some s.nextOp), nextOp := s.nextOp + 1 }

/-- The process has read block `b` and changed it to `v`, in the buffer. -/
def System.modify (s : System n V) (op b : ℕ) (v : V) : System n V :=
  { s with
    cache := update s.cache b (some v)
    pending := s.pending ++ [{ op, block := b, value := v }]
    written := s.written ++ [{ op, block := b, value := v }] }

def System.logWrite (s : System n V) (b : ℕ) : System n V :=
  if s.lh.n ≥ logSize ∨ s.lh.n ≥ nlog - 1 then
    { s with pc := .panicked .tooBig }
  else if s.outstanding < 1 then
    { s with pc := .panicked .outside }
  else
    let i := s.lh.find b
    let block := update s.lh.block i b
    if i = s.lh.n then
      { s with lh := ⟨s.lh.n + 1, block⟩, pins := update s.pins b (s.pins b + 1) }
    else
      { s with lh := ⟨s.lh.n, block⟩ }

def System.endOp (s : System n V) (p : Fin n) : System n V :=
  let s := { s with outstanding := s.outstanding - 1, ops := update s.ops p none }
  if s.committing then
    { s with pc := .panicked .committing }
  else if s.outstanding = 0 then
    { s with committing := true, pc := .commit }
  else
    s

/-! ### Commit and recovery -/

/-- `write_head`: entries of the header block behind the new ones stay. -/
def Disk.writeHead (d : Disk V) (lh : Header) : Disk V :=
  { d with header := ⟨lh.n, fun i => if i < lh.n then lh.block i else d.header.block i⟩ }

/-- One round of `install_trans`. -/
def System.install (s : System n V) (tail : ℕ) : System n V :=
  { s with
    cache := update s.cache (s.lh.block tail) (some (s.disk.slots tail))
    disk := { s.disk with home := update s.disk.home (s.lh.block tail) (s.disk.slots tail) } }

/-- The next step of `commit` or of `recover_from_log`. -/
def System.advance (s : System n V) : Option (System n V) :=
  match s.pc with
  | .running | .panicked _ => none
  | .commit => some (if s.lh.n > 0 then { s with pc := .writeLog 0 } else { s with committing := false, pc := .running })
  | .writeLog tail =>
    some (if tail < s.lh.n then
      let b := s.lh.block tail
      { s with
        cache := update s.cache b (some (s.bread b))
        disk := { s.disk with slots := update s.disk.slots tail (s.bread b) }
        pc := .writeLog (tail + 1) }
    else
      { s with pc := .writeHead })
  | .writeHead =>
    some { s with disk := s.disk.writeHead s.lh, pc := .installTrans 0, pending := [], groups := s.groups ++ [s.pending] }
  | .installTrans tail =>
    some (if tail < s.lh.n then
      let s' := s.install tail
      { s' with pins := update s.pins (s.lh.block tail) (s.pins (s.lh.block tail) - 1), pc := .installTrans (tail + 1) }
    else
      { s with lh := ⟨0, s.lh.block⟩, pc := .clearHead })
  -- `end_op` goes on with `log.committing = 0`
  | .clearHead => some { s with disk := s.disk.writeHead s.lh, committing := false, pc := .running }
  | .readHead =>
    some { s with lh := ⟨s.disk.header.n, fun i => if i < s.disk.header.n then s.disk.header.block i else s.lh.block i⟩, pc := .recoverTrans 0 }
  | .recoverTrans tail =>
    some (if tail < s.lh.n then
      { s.install tail with pc := .recoverTrans (tail + 1) }
    else
      { s with lh := ⟨0, s.lh.block⟩, pc := .recoverHead })
  | .recoverHead => some { s with disk := s.disk.writeHead s.lh, pc := .running }

/-- The machine is switched on again. Operations that were not committed are lost. -/
def System.crash (s : System n V) : System n V :=
  { s with
    cache := fun _ => none
    pins := fun _ => 0
    lh := ⟨0, fun _ => 0⟩
    outstanding := 0
    committing := false
    pc := .readHead
    ops := fun _ => none
    pending := [] }

/-! ### Runs -/

/-- The log is being recovered and no process runs yet, or the kernel has panicked. -/
def Pc.stopped : Pc → Bool
  | .readHead | .recoverTrans _ | .recoverHead | .panicked _ => true
  | _ => false

def System.next (s : System n V) : Action n V → Option (System n V)
  | .beginOp p => if s.pc.stopped ∨ (s.ops p).isSome then none else s.beginOp p
  | .logWrite p b v => if s.pc.stopped then none else (s.ops p).map fun op => (s.modify op b v).logWrite b
  | .endOp p => if s.pc.stopped then none else (s.ops p).map fun _ => s.endOp p
  | .read b => some { s with cache := update s.cache b (some (s.bread b)) }
  | .evict b => if s.pins b = 0 then some { s with cache := update s.cache b none } else none
  | .advance => s.advance
  | .crash => some s.crash

def System.boot (n : ℕ) (d : Disk V) : System n V where
  disk := d
  cache _ := none
  pins _ := 0
  lh := ⟨0, fun _ => 0⟩
  outstanding := 0
  committing := false
  pc := .readHead
  ops _ := none
  nextOp := 0
  pending := []
  groups := []
  written := []

/-- Runs on a disk that `mkfs` has made: its log is empty. -/
def Reachable (d0 : Disk V) : System n V → Prop :=
  Transition.Reachable (fun s => d0.header.n = 0 ∧ s = System.boot n d0) (Transition.StepOf System.next)

/-! ### What the log is for -/

def replay (home : ℕ → V) : List (Write V) → ℕ → V
  | [] => home
  | w :: rest => replay (update home w.block w.value) rest

def recoverFromLog (d : Disk V) : Disk V where
  header := ⟨0, d.header.block⟩
  slots := d.slots
  home := (List.range d.header.n).foldl (fun home tail => update home (d.header.block tail) (d.slots tail)) d.home

end AdvancedXv6.Log
