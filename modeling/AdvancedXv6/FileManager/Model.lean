import AdvancedXv6.Lib.Transition
import AdvancedXv6.Lib.Weights

/-!
# The file manager

`concurrency/file_manager.c`: one thread for each request runs `handle_request`, and the threads share, for each file, the flag `is_deleted`, the counter `read_count` and three semaphores. A step of the model is one semaphore operation, one read or one write of `is_deleted` or `read_count`, one printed line, one `sleep` or one test of the thread's own variables. `read_count++` is a read and a write, so another thread can come between them.

A thread that cannot pass `sem_wait` has no step. A `sleep` is a step that is always enabled: it ends after an arbitrary number of steps of the other threads.
-/

namespace AdvancedXv6.FileManager

/-- The `operation` text of a request. A text that is none of the three falls through all the `strcmp` tests. -/
inductive Operation where
  | read
  | write
  | delete
  | other (text : String)
  deriving DecidableEq, Repr

structure Request (numFiles : ℕ) where
  userId : ℤ
  fileId : Fin numFiles
  operation : Operation
  requestTime : ℤ
  deriving DecidableEq, Repr

/-- The input of the program: the global parameters and the requests that `main` reads. -/
structure Params where
  readTime : ℤ
  writeTime : ℤ
  deleteTime : ℤ
  numFiles : ℕ
  maxConcurrent : ℕ
  patienceTime : ℤ
  numRequests : ℕ
  requests : Fin numRequests → Request numFiles

structure File where
  isDeleted : Bool
  readCount : ℤ
  lock : ℕ
  writeLock : ℕ
  deleteLock : ℕ
  deriving DecidableEq, Repr

/-- Where a thread is in `handle_request`: the operation it does next. A thread between the read and the write of `read_count` carries the value it has read. -/
inductive Pc where
  | sleepArrival
  | printMade
  | sleepSettle
  | whileTest
  | readWaitLock
  | readTestDeleted
  | readPrintDeclined
  | readPostDeclined
  | readLoadCount
  | readStoreCount (count : ℤ)
  | readTestFirst
  | readWaitDelete
  | readPostLock
  | readPrintTaken
  | readSleep
  | readPrintCompleted
  | readWaitLockAgain
  | readLoadCountAgain
  | readStoreCountAgain (count : ℤ)
  | readTestLast
  | readPostDelete
  | readPostLockAgain
  | writeWaitWrite
  | writeWaitLock
  | writeTestDeleted
  | writePrintDeclined
  | writePostLockDeclined
  | writePostWriteDeclined
  | writePostLock
  | writePrintTaken
  | writeSleep
  | writePrintCompleted
  | writePostWrite
  | deleteTryDelete
  | deleteWaitWrite
  | deleteWaitLock
  | deleteTestDeleted
  | deletePrintDeclined
  | deletePostLockDeclined
  | deletePostWriteDeclined
  | deletePostDeleteDeclined
  | deleteSetDeleted
  | deletePostLock
  | deletePrintTaken
  | deleteSleep
  | deletePrintCompleted
  | deletePostWrite
  | deletePostDelete
  | sleepRetry
  | afterLoop
  | returned
  deriving DecidableEq, Repr

structure Thread where
  pc : Pc
  waitTime : ℤ
  deriving DecidableEq, Repr

/-- The lines a thread prints. -/
inductive Message where
  | made (userId : ℤ) (operation : Operation) (file time : ℤ)
  | declined (userId time : ℤ)
  | taken (userId time : ℤ)
  | completed (userId time : ℤ)
  | canceled (userId time : ℤ)
  deriving DecidableEq, Repr

structure State (P : Params) where
  files : Fin P.numFiles → File
  threads : Fin P.numRequests → Thread
  output : List Message

/-! ### Semaphores -/

def semWait (value : ℕ) : Option ℕ := if 0 < value then some (value - 1) else none

def semPost (value : ℕ) : ℕ := value + 1

/-! ### One step of a thread -/

/-- What a step of one thread does to the thread, to its file and to the output. -/
structure Effect where
  thread : Thread
  file : File
  printed : List Message := []

variable (P : Params)

/-- The first operation of the branch of the `while` body that the `strcmp` tests select. -/
def branch : Operation → Pc
  | .read => .readWaitLock
  | .write => .writeWaitWrite
  | .delete => .deleteTryDelete
  | .other _ => .sleepRetry

/-- One operation of `handle_request`, or none if the thread is blocked in `sem_wait` or has returned. -/
def threadStep (r : Request P.numFiles) (th : Thread) (file : File) : Option Effect :=
  let goto (pc : Pc) : Option Effect := some { thread := { th with pc }, file }
  let touch (pc : Pc) (file' : File) : Option Effect := some { thread := { th with pc }, file := file' }
  let print (pc : Pc) (message : Message) : Option Effect :=
    some { thread := { th with pc }, file, printed := [message] }
  let now := r.requestTime + th.waitTime
  match th.pc with
  | .sleepArrival => goto .printMade
  | .printMade => print .sleepSettle (.made r.userId r.operation (r.fileId + 1) r.requestTime)
  | .sleepSettle => some { thread := { pc := .whileTest, waitTime := 1 }, file }
  | .whileTest => if th.waitTime < P.patienceTime then goto (branch r.operation) else goto .afterLoop
  | .readWaitLock => (semWait file.lock).bind fun lock => touch .readTestDeleted { file with lock }
  | .readTestDeleted => if file.isDeleted then goto .readPrintDeclined else goto .readLoadCount
  | .readPrintDeclined => print .readPostDeclined (.declined r.userId now)
  | .readPostDeclined => touch .returned { file with lock := semPost file.lock }
  | .readLoadCount => goto (.readStoreCount file.readCount)
  | .readStoreCount count => touch .readTestFirst { file with readCount := count + 1 }
  | .readTestFirst => if file.readCount = 1 then goto .readWaitDelete else goto .readPostLock
  | .readWaitDelete =>
    (semWait file.deleteLock).bind fun deleteLock => touch .readPostLock { file with deleteLock }
  | .readPostLock => touch .readPrintTaken { file with lock := semPost file.lock }
  | .readPrintTaken => print .readSleep (.taken r.userId now)
  | .readSleep => goto .readPrintCompleted
  | .readPrintCompleted => print .readWaitLockAgain (.completed r.userId (now + P.readTime))
  | .readWaitLockAgain => (semWait file.lock).bind fun lock => touch .readLoadCountAgain { file with lock }
  | .readLoadCountAgain => goto (.readStoreCountAgain file.readCount)
  | .readStoreCountAgain count => touch .readTestLast { file with readCount := count - 1 }
  | .readTestLast => if file.readCount = 0 then goto .readPostDelete else goto .readPostLockAgain
  | .readPostDelete => touch .readPostLockAgain { file with deleteLock := semPost file.deleteLock }
  | .readPostLockAgain => touch .afterLoop { file with lock := semPost file.lock }
  | .writeWaitWrite =>
    (semWait file.writeLock).bind fun writeLock => touch .writeWaitLock { file with writeLock }
  | .writeWaitLock => (semWait file.lock).bind fun lock => touch .writeTestDeleted { file with lock }
  | .writeTestDeleted => if file.isDeleted then goto .writePrintDeclined else goto .writePostLock
  | .writePrintDeclined => print .writePostLockDeclined (.declined r.userId now)
  | .writePostLockDeclined => touch .writePostWriteDeclined { file with lock := semPost file.lock }
  | .writePostWriteDeclined => touch .returned { file with writeLock := semPost file.writeLock }
  | .writePostLock => touch .writePrintTaken { file with lock := semPost file.lock }
  | .writePrintTaken => print .writeSleep (.taken r.userId now)
  | .writeSleep => goto .writePrintCompleted
  | .writePrintCompleted => print .writePostWrite (.completed r.userId (now + P.writeTime))
  | .writePostWrite => touch .afterLoop { file with writeLock := semPost file.writeLock }
  -- `sem_trywait` does not block: without the semaphore the loop goes round once more
  | .deleteTryDelete =>
    match semWait file.deleteLock with
    | some deleteLock => touch .deleteWaitWrite { file with deleteLock }
    | none => goto .sleepRetry
  | .deleteWaitWrite =>
    (semWait file.writeLock).bind fun writeLock => touch .deleteWaitLock { file with writeLock }
  | .deleteWaitLock => (semWait file.lock).bind fun lock => touch .deleteTestDeleted { file with lock }
  | .deleteTestDeleted => if file.isDeleted then goto .deletePrintDeclined else goto .deleteSetDeleted
  | .deletePrintDeclined => print .deletePostLockDeclined (.declined r.userId now)
  | .deletePostLockDeclined => touch .deletePostWriteDeclined { file with lock := semPost file.lock }
  | .deletePostWriteDeclined =>
    touch .deletePostDeleteDeclined { file with writeLock := semPost file.writeLock }
  | .deletePostDeleteDeclined => touch .returned { file with deleteLock := semPost file.deleteLock }
  | .deleteSetDeleted => touch .deletePostLock { file with isDeleted := true }
  | .deletePostLock => touch .deletePrintTaken { file with lock := semPost file.lock }
  | .deletePrintTaken => print .deleteSleep (.taken r.userId now)
  | .deleteSleep => goto .deletePrintCompleted
  | .deletePrintCompleted => print .deletePostWrite (.completed r.userId (now + P.deleteTime))
  | .deletePostWrite => touch .deletePostDelete { file with writeLock := semPost file.writeLock }
  | .deletePostDelete => touch .afterLoop { file with deleteLock := semPost file.deleteLock }
  | .sleepRetry => some { thread := { pc := .whileTest, waitTime := th.waitTime + 1 }, file }
  | .afterLoop =>
    if P.patienceTime ≤ th.waitTime then print .returned (.canceled r.userId now) else goto .returned
  | .returned => none

/-! ### The system of threads -/

variable {P}

def fileOf (t : Fin P.numRequests) : Fin P.numFiles := (P.requests t).fileId

def step (s : State P) (t : Fin P.numRequests) : Option (State P) :=
  (threadStep P (P.requests t) (s.threads t) (s.files (fileOf t))).map fun e =>
    { files := Function.update s.files (fileOf t) e.file
      threads := Function.update s.threads t e.thread
      output := s.output ++ e.printed }

/-- `init_files` sets every file to this. -/
def initFile (maxConcurrent : ℕ) : File :=
  { isDeleted := false, readCount := 0, lock := maxConcurrent, writeLock := 1, deleteLock := 1 }

def initial (P : Params) : State P :=
  { files := fun _ => initFile P.maxConcurrent
    threads := fun _ => { pc := .sleepArrival, waitTime := 1 }
    output := [] }

def Reachable (P : Params) : State P → Prop :=
  Transition.Reachable (· = initial P) (Transition.StepOf step)

def requestCount (P : Params) (f : Fin P.numFiles) (operation : Operation) : ℕ :=
  (Finset.univ.filter fun t => (P.requests t).fileId = f ∧ (P.requests t).operation = operation).card

def sampleInput (maxConcurrent : ℕ) (last : Operation) : Params where
  readTime := 2
  writeTime := 3
  deleteTime := 1
  numFiles := 1
  maxConcurrent := maxConcurrent
  patienceTime := 5
  numRequests := 3
  requests := fun t => { userId := t + 1, fileId := 0, operation := if t = 2 then last else .read, requestTime := 0 }

end AdvancedXv6.FileManager
