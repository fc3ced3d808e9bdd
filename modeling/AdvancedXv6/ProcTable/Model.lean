import AdvancedXv6.Lib.Transition
import Mathlib.Data.Fintype.Basic

/-!
# The process table

`allocproc`, `freeproc`, `fork`, `reparent`, `exit`, `wait`, `waitx`, `sleep`, `wakeup`, `kill` and `update_time` of `kernel/proc.c`, with `clockintr` of `kernel/trap.c`. The slots of the table are `n`; the process in a slot runs the code that its program counter names. A step is what is done under one acquisition of a `p->lock`, one turn of a loop that is run under `wait_lock`, an acquisition or a release of `wait_lock`, or a part of `sleep` or of `exit` while the process holds its own lock. Processes run when a scheduler has made them `RUNNING`, on any number of CPUs.

A process holds its own `p->lock` in `sleep` and at the end of `exit`, until the scheduler releases it. All others that want the lock wait. Elsewhere `p->lock` is taken and released within one step; `allocproc` returns with the lock of the new slot held, and `fork` releases it when the child has its memory and its files.

Each process has a number, which is the order of its creation, and a record of what happened to it. Both are for the statements only.
-/

namespace AdvancedXv6.ProcTable

inductive ProcState where
  | unused
  | used
  | sleeping
  | runnable
  | running
  | zombie
  deriving DecidableEq

/-- What a process sleeps on: a process, or something else. -/
inductive Chan (n : ℕ) where
  | proc (p : Fin n)
  | other (address : ℕ)
  deriving DecidableEq

/-- The lines of `sleep`: before `acquire(&p->lock)`, before `release(lk)`, before the change of the state, before the scheduler has released `p->lock`, and after. -/
inductive Stage where
  | lock
  | unlock
  | mark
  | switch
  | asleep
  deriving DecidableEq

/-- What the allocations of `fork` give: the trapframe, the page table, and whether `uvmcopy` succeeds. -/
structure Alloc where
  trapframe : ℕ
  pagetable : ℕ
  copied : Bool

inductive Pc (n : ℕ) where
  | user
  /-- Asleep in another part of the kernel. -/
  | blocked
  | forkScan (alloc : Alloc) (i : ℕ)
  | forkParent (child : Fin n)
  | forkRunnable (child : Fin n)
  | exitLock (status : Int32)
  | reparent (status : Int32) (i : ℕ)
  /-- In `wakeup(initproc)` after slot `i` has been given to `initproc`. -/
  | reparentWake (status : Int32) (i j : ℕ)
  /-- In `wakeup(p->parent)`. -/
  | exitWake (status : Int32) (j : ℕ)
  | exitZombie (status : Int32)
  | exitUnlock
  | exitSwitch
  | dead
  /-- `wait` or `waitx`; the flag says whether the status can be copied out. -/
  | waitLock (ok : Bool)
  | waitScan (ok : Bool) (i : ℕ) (havekids : Bool)
  | waitSleep (ok : Bool) (stage : Stage)
  | killScan (pid : Int32) (i : ℕ)

def Pc.holdsWait {n : ℕ} : Pc n → Bool
  | .reparent .. | .reparentWake .. | .exitWake .. | .exitZombie _ | .exitUnlock | .waitScan .. => true
  | .waitSleep _ .lock | .waitSleep _ .unlock => true
  | _ => false

def Pc.holdsOwn {n : ℕ} : Pc n → Bool
  | .exitUnlock | .exitSwitch => true
  | .waitSleep _ .unlock | .waitSleep _ .mark | .waitSleep _ .switch => true
  | _ => false

structure Note where
  /-- The number of the process. -/
  number : ℕ
  /-- `kill` has been called with its `pid`. -/
  asked : Bool
  /-- The number of ticks at which `ctime` was read. -/
  born : ℕ
  /-- The number of ticks at which `etime` was read. -/
  died : ℕ

/-- `struct proc`. Pointers are numbers, and 0 is the null pointer. -/
structure Slot (n : ℕ) where
  state : ProcState
  chan : Option (Chan n)
  killed : Bool
  xstate : Int32
  pid : Int32
  parent : Option (Fin n)
  sz : ℕ
  pagetable : ℕ
  trapframe : ℕ
  ofile : ℕ → ℕ
  cwd : ℕ
  rtime : UInt32
  ctime : UInt32
  etime : UInt32
  pc : Pc n
  note : Note

/-- A child that `wait` or `waitx` has found, and what `waitx` says of it. -/
structure Reaped (n : ℕ) where
  number : ℕ
  pid : Int32
  parent : Option (Fin n)
  waiter : Fin n
  rtime : UInt32
  wtime : UInt32

structure System (n : ℕ) where
  slots : Fin n → Slot n
  initproc : Fin n
  nextpid : Int32
  waitLock : Option (Fin n)
  ticks : UInt32
  /-- The slot before which the loop of `update_time` is. -/
  sweep : Option ℕ
  /-- The number of ticks so far. -/
  now : ℕ
  /-- The number of processes so far. -/
  created : ℕ
  reaped : List (Reaped n)

/-! ### Slots -/

section Slots

variable {n : ℕ}

/-- `freeproc`. It leaves the open files and the directory to `exit`. -/
@[grind =] def Slot.freeproc (sl : Slot n) : Slot n :=
  { sl with trapframe := 0, pagetable := 0, sz := 0, pid := 0, parent := none, chan := none, killed := false, xstate := 0, state := .unused }

/-- `allocproc` in the slot it has found, and what `fork` does before it releases the lock of the slot: the slot, and whether there is a child. -/
def Slot.forkInto (np parent : Slot n) (alloc : Alloc) (pid : Int32) (ticks : UInt32) (number now : ℕ) : Slot n × Bool :=
  let np := { np with pid, state := .used, pc := .user, note := { number, asked := false, born := now, died := 0 } }
  if alloc.trapframe = 0 then
    (np.freeproc, false)
  else if alloc.pagetable = 0 then
    (({ np with trapframe := alloc.trapframe } : Slot n).freeproc, false)
  else
    let np := { np with trapframe := alloc.trapframe, pagetable := alloc.pagetable, rtime := 0, etime := 0, ctime := ticks }
    if alloc.copied then
      ({ np with sz := parent.sz, ofile := fun fd => if parent.ofile fd = 0 then np.ofile fd else parent.ofile fd, cwd := parent.cwd }, true)
    else
      (np.freeproc, false)

@[grind =] def Slot.wakeup (sl : Slot n) (chan : Chan n) : Slot n :=
  if sl.state = .sleeping ∧ sl.chan = some chan then { sl with state := .runnable } else sl

@[grind =] def Slot.kill (sl : Slot n) : Slot n :=
  { sl with killed := true, state := if sl.state = .sleeping then .runnable else sl.state, note := { sl.note with asked := true } }

@[grind =] def Slot.close (sl : Slot n) : Slot n := { sl with ofile := fun _ => 0, cwd := 0 }

@[grind =] def Slot.updateTime (sl : Slot n) : Slot n := if sl.state = .running then { sl with rtime := sl.rtime + 1 } else sl

end Slots

/-! ### Steps -/

inductive Event (n : ℕ) where
  | fork (p : Fin n) (alloc : Alloc)
  | exit (p : Fin n) (status : Int32)
  | wait (p : Fin n) (ok : Bool)
  | kill (p : Fin n) (pid : Int32)
  /-- `exec`, `sbrk`, `open`, `close`, `chdir` and the like change what is private to a process. -/
  | change (p : Fin n) (sz pagetable cwd : ℕ) (ofile : ℕ → ℕ)
  /-- `sleep` on something else, and the `wakeup` for it. -/
  | block (p : Fin n) (address : ℕ)
  | unblock (p : Fin n)
  | run (p : Fin n)
  | schedule (p : Fin n)
  | yield (p : Fin n)
  | tick
  | sweep

namespace System

variable {n : ℕ}

def modify (s : System n) (p : Fin n) (f : Slot n → Slot n) : System n := { s with slots := Function.update s.slots p (f (s.slots p)) }

@[grind =] def goto (s : System n) (p : Fin n) (pc : Pc n) : System n := s.modify p fun sl => { sl with pc }

def acquire (s : System n) (p : Fin n) (pc : Pc n) : Option (System n) :=
  match s.waitLock with
  | none => some ({ s with waitLock := some p }.goto p pc)
  | some _ => none

@[grind =] def release (s : System n) (p : Fin n) (pc : Pc n) : System n := { s with waitLock := none }.goto p pc

/-- What is done under `acquire(&q->lock)`. -/
def locked (s : System n) (q : Fin n) (s' : System n) : Option (System n) := if (s.slots q).pc.holdsOwn then none else some s'

def call (s : System n) (p : Fin n) (s' : System n) : Option (System n) :=
  match (s.slots p).state, (s.slots p).pc with
  | .running, .user => some s'
  | _, _ => none

def allocate (s : System n) (p q : Fin n) (alloc : Alloc) : System n :=
  let r := (s.slots q).forkInto (s.slots p) alloc s.nextpid s.ticks s.created s.now
  { s.modify q (fun _ => r.1) with nextpid := s.nextpid + 1, created := s.created + 1 }.goto p (if r.2 then .forkParent q else .user)

/-- `allocproc` before slot `i`. -/
def forkScan (s : System n) (p : Fin n) (alloc : Alloc) (i : ℕ) : Option (System n) :=
  if h : i < n then
    s.locked ⟨i, h⟩ (if (s.slots ⟨i, h⟩).state = .unused then s.allocate p ⟨i, h⟩ alloc else s.goto p (.forkScan alloc (i + 1)))
  else
    some (s.goto p .user)

/-- `reparent` before slot `i`. -/
def reparent (s : System n) (p : Fin n) (status : Int32) (i : ℕ) : System n :=
  if h : i < n then
    if (s.slots ⟨i, h⟩).parent = some p then
      (s.modify ⟨i, h⟩ fun sl => { sl with parent := some s.initproc }).goto p (.reparentWake status i 0)
    else
      s.goto p (.reparent status (i + 1))
  else
    s.goto p (.exitWake status 0)

/-- `wakeup` before slot `j`, called by `p`; `next` is the next turn and `done` what comes after the loop. -/
def wakeupAt (s : System n) (p : Fin n) (chan : Option (Chan n)) (j : ℕ) (next done : Pc n) : Option (System n) :=
  if h : j < n then
    if ⟨j, h⟩ = p then
      some (s.goto p next)
    else
      s.locked ⟨j, h⟩ (match chan with
        | none => s.goto p next
        | some chan => (s.modify ⟨j, h⟩ (·.wakeup chan)).goto p next)
  else
    some (s.goto p done)

/-- `wait` has found the zombie in slot `q`. -/
def reap (s : System n) (p q : Fin n) : System n :=
  let np := s.slots q
  let child : Reaped n :=
    { number := np.note.number, pid := np.pid, parent := np.parent, waiter := p, rtime := np.rtime, wtime := np.etime - np.ctime - np.rtime }
  { s.modify q Slot.freeproc with reaped := s.reaped ++ [child] }.release p .user

/-- The loop of `wait` and `waitx` before slot `i`. -/
def waitScan (s : System n) (p : Fin n) (ok : Bool) (i : ℕ) (havekids : Bool) : Option (System n) :=
  if h : i < n then
    if (s.slots ⟨i, h⟩).parent = some p then
      s.locked ⟨i, h⟩ (
        if (s.slots ⟨i, h⟩).state = .zombie then
          if ok then s.reap p ⟨i, h⟩ else s.release p .user
        else
          s.goto p (.waitScan ok (i + 1) true))
    else
      some (s.goto p (.waitScan ok (i + 1) havekids))
  else if havekids = false ∨ (s.slots p).killed then
    some (s.release p .user)
  else
    some (s.goto p (.waitSleep ok .lock))

/-- `kill` before slot `i`. -/
def killScan (s : System n) (p : Fin n) (pid : Int32) (i : ℕ) : Option (System n) :=
  if h : i < n then
    s.locked ⟨i, h⟩ (if (s.slots ⟨i, h⟩).pid = pid then (s.modify ⟨i, h⟩ Slot.kill).goto p .user else s.goto p (.killScan pid (i + 1)))
  else
    some (s.goto p .user)

def run (s : System n) (p : Fin n) : Option (System n) :=
  if (s.slots p).state = .running ∨ (s.slots p).pc.holdsOwn then
    match (s.slots p).pc with
    | .user | .dead => none
    | .blocked => some (s.modify p fun sl => { sl with chan := none, pc := .user })
    | .forkScan alloc i => s.forkScan p alloc i
    | .forkParent child =>
      match s.waitLock with
      | none => some ((s.modify child fun sl => { sl with parent := some p }).goto p (.forkRunnable child))
      | some _ => none
    | .forkRunnable child => s.locked child ((s.modify child fun sl => { sl with state := .runnable }).goto p .user)
    | .exitLock status => s.acquire p (.reparent status 0)
    | .reparent status i => some (s.reparent p status i)
    | .reparentWake status i j => s.wakeupAt p (some (.proc s.initproc)) j (.reparentWake status i (j + 1)) (.reparent status (i + 1))
    | .exitWake status j => s.wakeupAt p ((s.slots p).parent.map .proc) j (.exitWake status (j + 1)) (.exitZombie status)
    | .exitZombie status =>
      some (s.modify p fun sl =>
        { sl with xstate := status, state := .zombie, etime := s.ticks, pc := .exitUnlock, note := { sl.note with died := s.now } })
    | .exitUnlock => some (s.release p .exitSwitch)
    | .exitSwitch => some (s.goto p .dead)
    | .waitLock ok => s.acquire p (.waitScan ok 0 false)
    | .waitScan ok i havekids => s.waitScan p ok i havekids
    | .waitSleep ok .lock => some (s.goto p (.waitSleep ok .unlock))
    | .waitSleep ok .unlock => some (s.release p (.waitSleep ok .mark))
    | .waitSleep ok .mark => some (s.modify p fun sl => { sl with chan := some (.proc p), state := .sleeping, pc := .waitSleep ok .switch })
    | .waitSleep ok .switch => some (s.goto p (.waitSleep ok .asleep))
    | .waitSleep ok .asleep => some (s.modify p fun sl => { sl with chan := none, pc := .waitLock ok })
    | .killScan pid i => s.killScan p pid i
  else
    none

def next (s : System n) : Event n → Option (System n)
  | .fork p alloc => s.call p (s.goto p (.forkScan alloc 0))
  | .exit p status => if p = s.initproc then none else s.call p ((s.modify p Slot.close).goto p (.exitLock status))
  | .wait p ok => s.call p (s.goto p (.waitLock ok))
  | .kill p pid => s.call p (s.goto p (.killScan pid 0))
  | .change p sz pagetable cwd ofile => s.call p (s.modify p fun sl => { sl with sz, pagetable, cwd, ofile })
  | .block p address => s.call p (s.modify p fun sl => { sl with chan := some (.other address), state := .sleeping, pc := .blocked })
  | .unblock p =>
    match (s.slots p).state, (s.slots p).chan with
    | .sleeping, some (.other _) => some (s.modify p fun sl => { sl with state := .runnable })
    | _, _ => none
  | .run p => s.run p
  | .schedule p => if (s.slots p).state = .runnable then s.locked p (s.modify p fun sl => { sl with state := .running }) else none
  | .yield p =>
    if (s.slots p).state = .running ∧ (s.slots p).pc.holdsOwn = false ∧ (s.slots p).pc.holdsWait = false then
      some (s.modify p fun sl => { sl with state := .runnable })
    else
      none
  | .tick =>
    match s.sweep with
    | none => some { s with ticks := s.ticks + 1, now := s.now + 1, sweep := some 0 }
    | some _ => none
  | .sweep =>
    match s.sweep with
    | none => none
    | some i =>
      if h : i < n then
        s.locked ⟨i, h⟩ { s.modify ⟨i, h⟩ Slot.updateTime with sweep := some (i + 1) }
      else
        some { s with sweep := none }

end System

/-! ### The first state -/

/-- A slot that has not been used yet, or that `freeproc` has left after `exit`. -/
structure Slot.Clean {n : ℕ} (sl : Slot n) : Prop where
  killed : sl.killed = false
  pid : sl.pid = 0
  parent : sl.parent = none
  chan : sl.chan = none
  sz : sl.sz = 0
  trapframe : sl.trapframe = 0
  pagetable : sl.pagetable = 0
  cwd : sl.cwd = 0
  ofile : ∀ fd, sl.ofile fd = 0

/-- The state that `procinit` and `userinit` leave: the table is empty but for `initproc`, which has no parent. -/
structure System.Init {n : ℕ} (s : System n) : Prop where
  initproc_state : (s.slots s.initproc).state = .runnable
  initproc_parent : (s.slots s.initproc).parent = none
  initproc_killed : (s.slots s.initproc).killed = false
  initproc_chan : (s.slots s.initproc).chan = none
  initproc_rtime : (s.slots s.initproc).rtime = 0
  initproc_ctime : (s.slots s.initproc).ctime = s.ticks
  initproc_note : (s.slots s.initproc).note = { number := 0, asked := false, born := s.now, died := 0 }
  others_state : ∀ p, p ≠ s.initproc → (s.slots p).state = .unused
  others_clean : ∀ p, p ≠ s.initproc → (s.slots p).Clean
  pc : ∀ p, (s.slots p).pc = .user
  waitLock : s.waitLock = none
  ticks : s.ticks = UInt32.ofNat s.now
  sweep : s.sweep = none
  created : s.created = 1
  reaped : s.reaped = []

end AdvancedXv6.ProcTable
