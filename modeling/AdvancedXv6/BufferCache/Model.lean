import AdvancedXv6.Lib.Ring
import AdvancedXv6.Lib.Transition
import Mathlib.Data.Fintype.Basic

/-!
# The buffer cache

`binit`, `bget`, `bread`, `brelse`, `bpin` and `bunpin` of `kernel/bio.c`, for `n` buffers. The list of buffers is the ring through `bcache.head` of the pointers `next` and `prev`. What is done under `bcache.lock` is one step, since the pointers, the reference counts and the blocks of the buffers are not touched without it; taking and releasing the sleep-lock of a buffer are steps of their own, so that other processes come in between.

The number of the `brelse` by which a buffer last came to no references is kept for the statements only.
-/

namespace AdvancedXv6.BufferCache

open Function Ring

/-- `struct buf`, without the data. -/
structure Buf where
  dev : UInt32
  blockno : UInt32
  refcnt : UInt32
  valid : Bool

abbrev Node (n : ℕ) := Option (Fin n)

inductive Pc (n : ℕ) where
  | idle
  /-- In `bread`, before `acquiresleep(&b->lock)`. -/
  | lock (b : Fin n)
  /-- In `bread`, with the sleep-lock. -/
  | fill (b : Fin n)
  /-- In `brelse`, after `releasesleep(&b->lock)`. -/
  | release (b : Fin n)
  deriving DecidableEq

/-- The cache, who has the sleep-lock of each buffer, and where the processes are. -/
structure System (k n : ℕ) where
  links : Links (Node n)
  bufs : Fin n → Buf
  owner : Fin n → Option (Fin k)
  pcs : Fin k → Pc n
  /-- How often a buffer has come to no references by a `brelse`. -/
  releases : ℕ
  /-- The number of the last one for each buffer. -/
  returned : Fin n → ℕ

inductive Event (k n : ℕ) where
  | bread (p : Fin k) (dev blockno : UInt32)
  | brelse (p : Fin k) (b : Fin n)
  | bpin (p : Fin k) (b : Fin n)
  | bunpin (p : Fin k) (b : Fin n)
  | run (p : Fin k)

variable {k n : ℕ}

/-- `binit`, on pointers of any value. -/
def binit (n : ℕ) (links : Links (Node n)) : Links (Node n) :=
  let links := (links.setPrev none none).setNext none none
  (List.finRange n).foldl (fun links b => links.insertAfter none (some b)) links

namespace System

def Assigned (s : System k n) (b : Fin n) (dev blockno : UInt32) : Prop := (s.bufs b).dev = dev ∧ (s.bufs b).blockno = blockno

instance (s : System k n) (b : Fin n) (dev blockno : UInt32) : Decidable (s.Assigned b dev blockno) := inferInstanceAs (Decidable (_ ∧ _))

def setBuf (s : System k n) (b : Fin n) (buf : Buf) : System k n := { s with bufs := update s.bufs b buf }

def goto (s : System k n) (p : Fin k) (pc : Pc n) : System k n := { s with pcs := update s.pcs p pc }

/-- The first loop of `bget`. -/
def lookup (s : System k n) (dev blockno : UInt32) : Option (Option (Node n)) :=
  Links.scan s.links.next none (fun node => node.any fun b => decide (s.Assigned b dev blockno)) (n + 1) (s.links.next none)

/-- The second loop of `bget`. -/
def victim (s : System k n) : Option (Option (Node n)) :=
  Links.scan s.links.prev none (fun node => node.any fun b => decide ((s.bufs b).refcnt = 0)) (n + 1) (s.links.prev none)

/-- `bget` up to `acquiresleep`: the buffer. -/
def bget (s : System k n) (dev blockno : UInt32) : Option (System k n × Fin n) :=
  match s.lookup dev blockno with
  | some (some (some b)) => some (s.setBuf b { s.bufs b with refcnt := (s.bufs b).refcnt + 1 }, b)
  | some none =>
    match s.victim with
    | some (some (some b)) => some (s.setBuf b { dev, blockno, valid := false, refcnt := 1 }, b)
    | _ => none
  | _ => none

/-- The part of `brelse` under `bcache.lock`. -/
def unref (s : System k n) (b : Fin n) : System k n :=
  let refcnt := (s.bufs b).refcnt - 1
  let s := s.setBuf b { s.bufs b with refcnt }
  if refcnt = 0 then
    { s with links := (s.links.unlink (some b)).insertAfter none (some b), releases := s.releases + 1, returned := update s.returned b (s.releases + 1) }
  else
    s

def run (s : System k n) (p : Fin k) : Option (System k n) :=
  match s.pcs p with
  | .idle => none
  | .lock b =>
    match s.owner b with
    | none => some ({ s with owner := update s.owner b (some p) }.goto p (.fill b))
    | some _ => none
  | .fill b => some ((s.setBuf b { s.bufs b with valid := true }).goto p .idle)
  | .release b => some ((s.unref b).goto p .idle)

def call (s : System k n) (p : Fin k) (b : Fin n) (s' : System k n) : Option (System k n) :=
  match s.pcs p with
  | .idle => if s.owner b = some p then some s' else none
  | _ => none

def next (s : System k n) : Event k n → Option (System k n)
  | .bread p dev blockno =>
    match s.pcs p with
    | .idle => (s.bget dev blockno).map fun r => r.1.goto p (.lock r.2)
    | _ => none
  | .brelse p b => s.call p b ({ s with owner := update s.owner b none }.goto p (.release b))
  | .bpin p b => s.call p b (s.setBuf b { s.bufs b with refcnt := (s.bufs b).refcnt + 1 })
  | .bunpin p b => s.call p b (s.setBuf b { s.bufs b with refcnt := (s.bufs b).refcnt - 1 })
  | .run p => s.run p

structure Init (s : System k n) : Prop where
  links : ∃ links, s.links = binit n links
  bufs : ∀ b, s.bufs b = { dev := 0, blockno := 0, refcnt := 0, valid := false }
  owner : ∀ b, s.owner b = none
  pcs : ∀ p, s.pcs p = .idle
  releases : s.releases = 0
  returned : ∀ b, s.returned b = 0

end System

end AdvancedXv6.BufferCache
