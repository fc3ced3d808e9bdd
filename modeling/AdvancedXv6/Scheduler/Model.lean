import AdvancedXv6.ProcTable.Model
import Mathlib.Algebra.Ring.Int.Defs

/-!
# CPUs

`scheduler`, `sched`, `yield`, `forkret`, `sleep`, `wakeup`, `kill` and the end of `exit` of `kernel/proc.c` on any number of CPUs, with `acquire`, `release`, `push_off` and `pop_off` of `kernel/spinlock.c`, the timer interrupt of `kernel/trap.c`, and the two halves of `swtch`.

A CPU has its registers, which say on which stack it is and where in the code. The code is a stack of frames, one for each function that has been called; the top frame names the operation that is next. An operation is an acquisition or a release of a lock, or half of a `swtch`, and a step is one operation with the code up to the next. `swtch` stores the registers in one context and then loads them from another, so that the rest of a function is run by whoever loads the context, on any CPU.

Of the spin locks other than the `p->lock`s only the number that a CPU holds matters here, because interrupts are off while it is not 0. A `panic` stops the CPU.
-/

namespace AdvancedXv6.Scheduler

open ProcTable (ProcState)

inductive Frame (n : ℕ) where
  /-- `scheduler` before it looks at slot `i`. -/
  | scheduler (i : ℕ)
  /-- Before `swtch(&c->context, &p->context)` stores the registers. -/
  | schedulerSave (p : Fin n)
  | schedulerLoad (p : Fin n)
  /-- After `swtch`, before `c->proc = 0`. -/
  | schedulerBack (p : Fin n)
  | schedulerRelease (p : Fin n)
  /-- User space, or a part of the kernel that is not modelled, which holds so many spin locks. -/
  | code (locks : ℕ)
  /-- An interrupt has been taken, and the handler holds so many spin locks. -/
  | trap (locks : ℕ)
  | forkret
  | yield (p : Fin n)
  /-- `yield` after `sched`. -/
  | yielded (p : Fin n)
  | sleepLock (p : Fin n) (chan : ℕ)
  /-- `sleep` before `release(lk)`. -/
  | sleepRelease (p : Fin n) (chan : ℕ)
  /-- `sleep` after `sched`. -/
  | slept (p : Fin n)
  /-- `sleep` before `acquire(lk)`. -/
  | sleepRelock
  /-- `exit` before `acquire(&wait_lock)`. -/
  | exitWait (p : Fin n)
  /-- `exit` before `acquire(&p->lock)`. -/
  | exitLock (p : Fin n)
  /-- `exit` before `release(&wait_lock)`. -/
  | exitRelease (p : Fin n)
  | exited (p : Fin n)
  /-- Before `swtch(&p->context, &mycpu()->context)` stores the registers. -/
  | schedSave (p : Fin n) (intena : Bool)
  | schedLoad (p : Fin n)
  /-- `sched` after `swtch`. -/
  | schedBack (intena : Bool)
  | wakeup (chan : ℕ) (i : ℕ)
  | wakeupRelease (chan : ℕ) (q : Fin n)
  | kill (pid : Int32) (i : ℕ)
  | killRelease (pid : Int32) (q : Fin n) (found : Bool)

/-- `struct context`: whose kernel stack `sp` points into, if it is that of a process, and where the code goes on. -/
structure Context (n : ℕ) where
  sp : Option (Fin n)
  frames : List (Frame n)

/-- `struct proc`. The lock is held by a CPU. -/
structure Proc (m n : ℕ) where
  lock : Option (Fin m)
  state : ProcState
  chan : ℕ
  killed : Bool
  pid : Int32
  context : Context n

/-- `struct cpu`, whether interrupts are on, and the registers. In the source `noff` is an `int`. Here
it does not wrap: what is said of it is for fewer than 2^31 outstanding `push_off`s. -/
structure Cpu (n : ℕ) where
  proc : Option (Fin n)
  context : Context n
  noff : ℕ
  intena : Bool
  intr : Bool
  regs : Context n

structure System (m n : ℕ) where
  cpus : Fin m → Cpu n
  procs : Fin n → Proc m n

inductive Event (m n : ℕ) where
  /-- The CPU does the next operation. -/
  | run (c : Fin m)
  | interrupt (c : Fin m)
  | trapReturn (c : Fin m)
  /-- Code that holds no lock switches interrupts on or off. -/
  | setIntr (c : Fin m) (on : Bool)
  /-- `acquire` and `release` of a lock that is not a `p->lock`. -/
  | lock (c : Fin m)
  | unlock (c : Fin m)
  | yield (c : Fin m)
  | sleep (c : Fin m) (chan : ℕ)
  | exit (c : Fin m)
  | wakeup (c : Fin m) (chan : ℕ)
  | kill (c : Fin m) (pid : Int32)

variable {m n : ℕ}

/-! ### Locks -/

namespace Cpu

def pushOff (cpu : Cpu n) : Cpu n := { cpu with intr := false, intena := if cpu.noff = 0 then cpu.intr else cpu.intena, noff := cpu.noff + 1 }

def popOff (cpu : Cpu n) : Option (Cpu n) :=
  if cpu.intr = false ∧ 1 ≤ cpu.noff then
    some { cpu with noff := cpu.noff - 1, intr := decide (cpu.noff - 1 = 0) && cpu.intena }
  else
    none

def goto (cpu : Cpu n) (frames : List (Frame n)) : Cpu n := { cpu with regs := { cpu.regs with frames } }

end Cpu

namespace System

def setCpu (s : System m n) (c : Fin m) (cpu : Cpu n) : System m n := { s with cpus := Function.update s.cpus c cpu }

def setProc (s : System m n) (p : Fin n) (proc : Proc m n) : System m n := { s with procs := Function.update s.procs p proc }

def goto (s : System m n) (c : Fin m) (frames : List (Frame n)) : System m n := s.setCpu c ((s.cpus c).goto frames)

def acquire (s : System m n) (c : Fin m) (p : Fin n) : Option (System m n) :=
  match (s.procs p).lock with
  | none => some ((s.setCpu c (s.cpus c).pushOff).setProc p { s.procs p with lock := some c })
  | some _ => none

def release (s : System m n) (c : Fin m) (p : Fin n) : Option (System m n) :=
  if (s.procs p).lock = some c then
    (s.cpus c).popOff.map fun cpu => (s.setCpu c cpu).setProc p { s.procs p with lock := none }
  else
    none

def acquireOther (s : System m n) (c : Fin m) : System m n := s.setCpu c (s.cpus c).pushOff

def releaseOther (s : System m n) (c : Fin m) : Option (System m n) := (s.cpus c).popOff.map (s.setCpu c)

/-! ### Steps -/

/-- `sched` up to the `swtch`; the caller goes on at `rest`. -/
def sched (s : System m n) (c : Fin m) (p : Fin n) (rest : List (Frame n)) : Option (System m n) :=
  if (s.procs p).lock = some c ∧ (s.cpus c).noff = 1 ∧ (s.procs p).state ≠ .running ∧ (s.cpus c).intr = false then
    some (s.goto c (.schedSave p (s.cpus c).intena :: rest))
  else
    none

/-- The turn of `scheduler` for slot `p`, up to the `swtch`. -/
def schedule (s : System m n) (c : Fin m) (p : Fin n) (rest : List (Frame n)) : System m n :=
  if (s.procs p).state = .runnable then
    (s.setProc p { s.procs p with state := .running }).setCpu c ({ s.cpus c with proc := some p }.goto (.schedulerSave p :: rest))
  else
    s.goto c (.schedulerRelease p :: rest)

def wake (s : System m n) (q : Fin n) (chan : ℕ) : System m n :=
  if (s.procs q).state = .sleeping ∧ (s.procs q).chan = chan then s.setProc q { s.procs q with state := .runnable } else s

def killProc (s : System m n) (q : Fin n) : System m n :=
  s.setProc q { s.procs q with killed := true, state := if (s.procs q).state = .sleeping then .runnable else (s.procs q).state }

def run (s : System m n) (c : Fin m) : Option (System m n) :=
  match (s.cpus c).regs.frames with
  | .scheduler i :: rest =>
    if h : i < n then
      (s.acquire c ⟨i, h⟩).map fun s => s.schedule c ⟨i, h⟩ rest
    else
      some (s.setCpu c ({ s.cpus c with intr := true }.goto (.scheduler 0 :: rest)))
  | .schedulerSave p :: rest =>
    some (s.setCpu c ({ s.cpus c with context := { (s.cpus c).regs with frames := .schedulerBack p :: rest } }.goto (.schedulerLoad p :: rest)))
  | .schedulerLoad p :: _ => some (s.setCpu c { s.cpus c with regs := (s.procs p).context })
  | .schedulerBack p :: rest => some (s.setCpu c ({ s.cpus c with proc := none }.goto (.schedulerRelease p :: rest)))
  | .schedulerRelease p :: rest => (s.release c p).map fun s => s.goto c (.scheduler (p + 1) :: rest)
  | .forkret :: rest =>
    match (s.cpus c).proc with
    | some p => (s.release c p).map fun s => s.goto c rest
    | none => none
  | .yield p :: rest => (s.acquire c p).bind fun s => (s.setProc p { s.procs p with state := .runnable }).sched c p (.yielded p :: rest)
  | .yielded p :: rest => (s.release c p).map fun s => s.goto c rest
  | .sleepLock p chan :: rest => (s.acquire c p).map fun s => s.goto c (.sleepRelease p chan :: rest)
  | .sleepRelease p chan :: rest => (s.releaseOther c).bind fun s => (s.setProc p { s.procs p with chan, state := .sleeping }).sched c p (.slept p :: rest)
  | .slept p :: rest => ((s.setProc p { s.procs p with chan := 0 }).release c p).map fun s => s.goto c (.sleepRelock :: rest)
  | .sleepRelock :: .code locks :: rest => some ((s.acquireOther c).goto c (.code (locks + 1) :: rest))
  | .exitWait p :: rest => some ((s.acquireOther c).goto c (.exitLock p :: rest))
  | .exitLock p :: rest => (s.acquire c p).map fun s => (s.setProc p { s.procs p with state := .zombie }).goto c (.exitRelease p :: rest)
  | .exitRelease p :: rest => (s.releaseOther c).bind fun s => s.sched c p (.exited p :: rest)
  | .schedSave p intena :: rest =>
    some ((s.setProc p { s.procs p with context := { (s.cpus c).regs with frames := .schedBack intena :: rest } }).goto c (.schedLoad p :: rest))
  | .schedLoad _ :: _ => some (s.setCpu c { s.cpus c with regs := (s.cpus c).context })
  | .schedBack intena :: rest => some (s.setCpu c ({ s.cpus c with intena }.goto rest))
  | .wakeup chan i :: rest =>
    if h : i < n then
      if (s.cpus c).proc = some ⟨i, h⟩ then
        some (s.goto c (.wakeup chan (i + 1) :: rest))
      else
        (s.acquire c ⟨i, h⟩).map fun s => (s.wake ⟨i, h⟩ chan).goto c (.wakeupRelease chan ⟨i, h⟩ :: rest)
    else
      some (s.goto c rest)
  | .wakeupRelease chan q :: rest => (s.release c q).map fun s => s.goto c (.wakeup chan (q + 1) :: rest)
  | .kill pid i :: rest =>
    if h : i < n then
      (s.acquire c ⟨i, h⟩).map fun s =>
        if (s.procs ⟨i, h⟩).pid = pid then
          (s.killProc ⟨i, h⟩).goto c (.killRelease pid ⟨i, h⟩ true :: rest)
        else
          s.goto c (.killRelease pid ⟨i, h⟩ false :: rest)
    else
      some (s.goto c rest)
  | .killRelease pid q found :: rest => (s.release c q).map fun s => s.goto c (if found then rest else .kill pid (q + 1) :: rest)
  | _ => none

/-- A CPU does the next operation, or code that is not modelled calls something. -/
def next (s : System m n) : Event m n → Option (System m n)
  | .run c => s.run c
  | .interrupt c =>
    if (s.cpus c).intr then
      some (s.setCpu c ({ s.cpus c with intr := false }.goto (.trap 0 :: (s.cpus c).regs.frames)))
    else
      none
  | .trapReturn c =>
    match (s.cpus c).regs.frames with
    | .trap 0 :: rest => some (s.setCpu c ({ s.cpus c with intr := true }.goto rest))
    | _ => none
  | .setIntr c on =>
    match (s.cpus c).regs.frames with
    | .code 0 :: _ => some (s.setCpu c { s.cpus c with intr := on })
    | _ => none
  | .lock c =>
    match (s.cpus c).regs.frames with
    | .code locks :: rest => some ((s.acquireOther c).goto c (.code (locks + 1) :: rest))
    | .trap locks :: rest => some ((s.acquireOther c).goto c (.trap (locks + 1) :: rest))
    | _ => none
  | .unlock c =>
    match (s.cpus c).regs.frames with
    | .code (locks + 1) :: rest => (s.releaseOther c).map fun s => s.goto c (.code locks :: rest)
    | .trap (locks + 1) :: rest => (s.releaseOther c).map fun s => s.goto c (.trap locks :: rest)
    | _ => none
  | .yield c =>
    match (s.cpus c).regs.frames, (s.cpus c).proc with
    | .trap locks :: rest, some p => if (s.procs p).state = .running then some (s.goto c (.yield p :: .trap locks :: rest)) else none
    | _, _ => none
  | .sleep c chan =>
    match (s.cpus c).regs.frames, (s.cpus c).proc with
    | .code (locks + 1) :: rest, some p => some (s.goto c (.sleepLock p chan :: .code locks :: rest))
    | _, _ => none
  | .exit c =>
    match (s.cpus c).regs.frames, (s.cpus c).proc with
    | .code locks :: rest, some p => some (s.goto c (.exitWait p :: .code locks :: rest))
    | _, _ => none
  | .wakeup c chan =>
    match (s.cpus c).regs.frames with
    | .code locks :: rest => some (s.goto c (.wakeup chan 0 :: .code locks :: rest))
    | .trap locks :: rest => some (s.goto c (.wakeup chan 0 :: .trap locks :: rest))
    | .exitLock p :: rest => some (s.goto c (.wakeup chan 0 :: .exitLock p :: rest))
    | _ => none
  | .kill c pid =>
    match (s.cpus c).regs.frames with
    | .code locks :: rest => some (s.goto c (.kill pid 0 :: .code locks :: rest))
    | _ => none

/-- All CPUs are at the beginning of `scheduler`, and some of the slots have processes that have not run. -/
structure Init (s : System m n) : Prop where
  cpu : ∀ c, (s.cpus c).proc = none ∧ (s.cpus c).noff = 0 ∧ (s.cpus c).intr = false ∧ (s.cpus c).regs = ⟨none, [.scheduler n]⟩
  lock : ∀ p, (s.procs p).lock = none
  state : ∀ p, (s.procs p).state = .unused ∨ (s.procs p).state = .runnable
  context : ∀ p, (s.procs p).context = ⟨some p, [.forkret, .code 0]⟩

end System

end AdvancedXv6.Scheduler
