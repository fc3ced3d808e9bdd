import AdvancedXv6.Lib.Transition
import Mathlib.Data.Fintype.Basic

/-!
# Pipes

`pipewrite`, `piperead` and `pipeclose` of `kernel/pipe.c`, with `sleep`, `wakeup`, `kill` and `killed` of `kernel/proc.c`. Any number of processes use one pipe. A step of the model is an acquisition or a release of `pi->lock`, one turn of a loop that is run under it, one process of the loop of `wakeup`, or a part of `sleep`; a `kill` may come between any two steps.

A process holds its own `p->lock` from the first line of `sleep` until the scheduler lets go of it; `wakeup` and `kill` wait for it. Elsewhere `p->lock` is taken and released within one step.

Nothing is asked about who closes an end and when. In the kernel the last reference to an open file does it.
-/

namespace AdvancedXv6.Pipes

def pipeSize : ℕ := 512

structure Pipe where
  data : ℕ → UInt8
  nread : UInt32
  nwrite : UInt32
  readopen : Bool
  writeopen : Bool

namespace Pipe

def empty (pi : Pipe) : Prop := pi.nread = pi.nwrite

def full (pi : Pipe) : Prop := pi.nwrite = pi.nread + UInt32.ofNat pipeSize

instance (pi : Pipe) : Decidable pi.empty := inferInstanceAs (Decidable (_ = _))

instance (pi : Pipe) : Decidable pi.full := inferInstanceAs (Decidable (_ = _))

def put (pi : Pipe) (ch : UInt8) : Pipe :=
  { pi with data := Function.update pi.data (pi.nwrite.toNat % pipeSize) ch, nwrite := pi.nwrite + 1 }

def front (pi : Pipe) : UInt8 := pi.data (pi.nread.toNat % pipeSize)

def take (pi : Pipe) : Pipe := { pi with nread := pi.nread + 1 }

def close (pi : Pipe) (writable : Bool) : Pipe := if writable then { pi with writeopen := false } else { pi with readopen := false }

/-- The bytes in the ring, from the oldest on. -/
def contents (pi : Pipe) : List UInt8 := (List.range (pi.nwrite - pi.nread).toNat).map fun k => pi.data ((pi.nread.toNat + k) % pipeSize)

end Pipe

inductive Chan where
  | nread
  | nwrite
  deriving DecidableEq

/-- A call that may sleep, at the head of its loop. The arguments of a write say what `copyin` gives for each byte, those of a read whether `copyout` succeeds. -/
inductive Op where
  | write (src : ℕ → Option UInt8) (n : Int32) (i : ℕ)
  | read (dst : ℕ → Bool) (n : Int32)

def Op.chan : Op → Chan
  | .write .. => .nwrite
  | .read .. => .nread

/-- The lines of `sleep`: before `acquire(&p->lock)`, before `release(lk)`, before the change of the state, before the scheduler has released `p->lock`, and after. -/
inductive Stage where
  | lock
  | unlock
  | mark
  | switch
  | asleep
  deriving DecidableEq

inductive After where
  | release (ret : ℤ)
  | sleep (op : Op)

inductive Pc where
  | outside (ret : ℤ)
  /-- Before `acquire(&pi->lock)`, also that at the end of `sleep`. -/
  | acquire (op : Op)
  /-- Before the test of the loop of `pipewrite`. The flag says whether the process has put a byte into the pipe since it took the lock. -/
  | writeLoop (src : ℕ → Option UInt8) (n : Int32) (i : ℕ) (fresh : Bool)
  /-- After `copyin`. -/
  | writePut (src : ℕ → Option UInt8) (n : Int32) (i : ℕ) (fresh : Bool) (ch : UInt8)
  | readWait (dst : ℕ → Bool) (n : Int32)
  | readLoop (dst : ℕ → Bool) (n : Int32) (i : ℕ)
  | closeAcquire (writable : Bool)
  | closeEnd (writable : Bool)
  /-- In `wakeup`, before process `q`. -/
  | wakeup (chan : Chan) (q : ℕ) (after : After)
  | release (ret : ℤ)
  | sleep (stage : Stage) (op : Op)

def Op.head : Op → Pc
  | .write src n i => .writeLoop src n i false
  | .read dst n => .readWait dst n

def After.pc : After → Pc
  | .release ret => .release ret
  | .sleep op => .sleep .lock op

def Pc.holds : Pc → Bool
  | .outside _ | .acquire _ | .closeAcquire _ => false
  | .writeLoop .. | .writePut .. | .readWait .. | .readLoop .. | .closeEnd _ | .wakeup .. | .release _ => true
  | .sleep .lock _ | .sleep .unlock _ => true
  | .sleep .mark _ | .sleep .switch _ | .sleep .asleep _ => false

def Pc.holdsOwn : Pc → Bool
  | .sleep .unlock _ | .sleep .mark _ | .sleep .switch _ => true
  | _ => false

structure Proc where
  pc : Pc
  /-- The state is `SLEEPING`. -/
  sleeping : Bool
  chan : Option Chan
  killed : Bool

/-- The pipe and its users, with a record of the bytes that have been taken from writers and given to readers. -/
structure System (n : ℕ) where
  pipe : Pipe
  lock : Option (Fin n)
  procs : Fin n → Proc
  accepted : List UInt8
  delivered : List UInt8

inductive Event (n : ℕ) where
  | write (p : Fin n) (src : ℕ → Option UInt8) (count : Int32)
  | read (p : Fin n) (dst : ℕ → Bool) (count : Int32)
  | close (p : Fin n) (writable : Bool)
  | kill (q : Fin n)
  | run (p : Fin n)

namespace System

variable {n : ℕ}

def setProc (s : System n) (p : Fin n) (proc : Proc) : System n := { s with procs := Function.update s.procs p proc }

def goto (s : System n) (p : Fin n) (pc : Pc) : System n := s.setProc p { s.procs p with pc }

def acquire (s : System n) (p : Fin n) (pc : Pc) : Option (System n) :=
  match s.lock with
  | none => some ({ s with lock := some p }.goto p pc)
  | some _ => none

def start (s : System n) (p : Fin n) (pc : Pc) : Option (System n) :=
  match (s.procs p).pc with
  | .outside _ => some (s.goto p pc)
  | _ => none

def wake (s : System n) (q : Fin n) (chan : Chan) : System n :=
  if (s.procs q).sleeping ∧ (s.procs q).chan = some chan then s.setProc q { s.procs q with sleeping := false } else s

def kill (s : System n) (q : Fin n) : Option (System n) :=
  if (s.procs q).pc.holdsOwn then none else some (s.setProc q { s.procs q with killed := true, sleeping := false })

/-- One turn of the loop of `pipewrite` up to the byte. -/
def writeTest (s : System n) (p : Fin n) (src : ℕ → Option UInt8) (count : Int32) (i : ℕ) (fresh : Bool) : Pc :=
  if (i : ℤ) < count.toInt then
    if s.pipe.readopen = false ∨ (s.procs p).killed then
      .release (-1)
    else if s.pipe.full then
      .wakeup .nread 0 (.sleep (.write src count i))
    else
      match src i with
      | none => .wakeup .nread 0 (.release i)
      | some ch => .writePut src count i fresh ch
  else
    .wakeup .nread 0 (.release i)

/-- One turn of the loop in which `piperead` waits. -/
def readTest (s : System n) (p : Fin n) (dst : ℕ → Bool) (count : Int32) : Pc :=
  if s.pipe.empty ∧ s.pipe.writeopen then
    if (s.procs p).killed then .release (-1) else .sleep .lock (.read dst count)
  else
    .readLoop dst count 0

/-- One turn of the loop in which `piperead` copies. A byte that cannot be copied out is lost. -/
def readTurn (s : System n) (p : Fin n) (dst : ℕ → Bool) (count : Int32) (i : ℕ) : System n :=
  if (i : ℤ) < count.toInt ∧ ¬ s.pipe.empty then
    if dst i then
      { s with pipe := s.pipe.take, delivered := s.delivered ++ [s.pipe.front] }.goto p (.readLoop dst count (i + 1))
    else
      { s with pipe := s.pipe.take }.goto p (.wakeup .nwrite 0 (.release i))
  else
    s.goto p (.wakeup .nwrite 0 (.release i))

def run (s : System n) (p : Fin n) : Option (System n) :=
  match (s.procs p).pc with
  | .outside _ => none
  | .acquire op => s.acquire p op.head
  | .writeLoop src count i fresh => some (s.goto p (s.writeTest p src count i fresh))
  | .writePut src count i _ ch =>
    some ({ s with pipe := s.pipe.put ch, accepted := s.accepted ++ [ch] }.goto p (.writeLoop src count (i + 1) true))
  | .readWait dst count => some (s.goto p (s.readTest p dst count))
  | .readLoop dst count i => some (s.readTurn p dst count i)
  | .closeAcquire writable => s.acquire p (.closeEnd writable)
  | .closeEnd writable =>
    some ({ s with pipe := s.pipe.close writable }.goto p (.wakeup (if writable then .nread else .nwrite) 0 (.release 0)))
  | .wakeup chan q after =>
    if h : q < n then
      if ⟨q, h⟩ = p then
        some (s.goto p (.wakeup chan (q + 1) after))
      else if (s.procs ⟨q, h⟩).pc.holdsOwn then
        none
      else
        some ((s.wake ⟨q, h⟩ chan).goto p (.wakeup chan (q + 1) after))
    else
      some (s.goto p after.pc)
  | .release ret => some ({ s with lock := none }.goto p (.outside ret))
  | .sleep .lock op => some (s.goto p (.sleep .unlock op))
  | .sleep .unlock op => some ({ s with lock := none }.goto p (.sleep .mark op))
  | .sleep .mark op => some (s.setProc p { s.procs p with chan := some op.chan, sleeping := true, pc := .sleep .switch op })
  | .sleep .switch op => some (s.goto p (.sleep .asleep op))
  | .sleep .asleep op => if (s.procs p).sleeping then none else some (s.setProc p { s.procs p with chan := none, pc := .acquire op })

def next (s : System n) : Event n → Option (System n)
  | .write p src count => s.start p (.acquire (.write src count 0))
  | .read p dst count => s.start p (.acquire (.read dst count))
  | .close p writable => s.start p (.closeAcquire writable)
  | .kill q => s.kill q
  | .run p => s.run p

/-- `pipealloc` has made the pipe, and nobody uses it yet. What is in the page does not matter. -/
structure Init (s : System n) : Prop where
  nread : s.pipe.nread = 0
  nwrite : s.pipe.nwrite = 0
  readopen : s.pipe.readopen = true
  writeopen : s.pipe.writeopen = true
  lock : s.lock = none
  pc : ∀ p, (s.procs p).pc = .outside 0
  sleeping : ∀ p, (s.procs p).sleeping = false
  accepted : s.accepted = []
  delivered : s.delivered = []

end System

end AdvancedXv6.Pipes
