import AdvancedXv6.FileManager.Serialization

/-!
# The clock

One logical clock for all threads. It advances when no thread can do anything else: everyone sleeps, waits in `sem_wait` for a post, or has returned. A thread in `sleep(k)` goes on after `k` ticks; `k` is converted to `unsigned int`.

`handle_request` counts its own sleeps and nothing else. So `request_time + wait_time` lags behind
the clock by the time the request has waited for semaphores, and a WRITE that waits for another WRITE
may be taken up long after its patience is over.
-/

namespace AdvancedXv6.FileManager

open Function

variable {P : Params}

def sleepUnits (seconds : ℤ) : ℕ := (seconds % 2 ^ 32).toNat

def sleepTime (P : Params) (r : Request P.numFiles) : Pc → ℕ
  | .sleepArrival => sleepUnits r.requestTime
  | .sleepSettle | .sleepRetry => 1
  | .readSleep => sleepUnits P.readTime
  | .writeSleep => sleepUnits P.writeTime
  | .deleteSleep => sleepUnits P.deleteTime
  | _ => 0

def Pc.waiting : Pc → Bool
  | .readWaitLock | .readWaitDelete | .writeWaitWrite | .writeWaitLock | .deleteWaitWrite | .deleteWaitLock => true
  | _ => false

structure Timed (P : Params) where
  state : State P
  clock : ℕ
  /-- What is left of the sleep that the thread is in. -/
  remaining : Fin P.numRequests → ℕ
  /-- The time that has passed while the request waited for a semaphore before it was taken up. The program has no such variable. -/
  waited : Fin P.numRequests → ℕ

inductive Action (P : Params) where
  | run (t : Fin P.numRequests)
  | tick

/-- A thread does its next operation when its sleep is over. The clock advances when someone sleeps and nobody can run. -/
def Timed.next (c : Timed P) : Action P → Option (Timed P)
  | .run t =>
    if c.remaining t = 0 then
      (step c.state t).map fun s =>
        { c with state := s, remaining := update c.remaining t (sleepTime P (P.requests t) (s.threads t).pc) }
    else none
  | .tick =>
    if (∃ t, 0 < c.remaining t) ∧ ∀ t, 0 < c.remaining t ∨ (step c.state t).isNone then
      some { c with
        clock := c.clock + 1
        remaining := fun t => c.remaining t - 1
        waited := fun t => c.waited t + (c.state.threads t).pc.waiting.toNat }
    else none

def Timed.initial (P : Params) : Timed P where
  state := FileManager.initial P
  clock := 0
  remaining t := sleepUnits (P.requests t).requestTime
  waited _ := 0

def Timed.Reachable (c : Timed P) : Prop := Transition.Reachable (· = Timed.initial P) (Transition.StepOf Timed.next) c

/-- What `%d` shows of `request_time + wait_time`: the sum of two `int`s wraps around. -/
def shown (time : ℤ) : ℤ := time.bmod (2 ^ 32)

/-- Whoever is taken up now has not lost patience, and the time printed is the time on the clock. -/
def Timed.Honoured (c : Timed P) : Prop :=
  ∀ t e (userId time : ℤ),
    threadStep P (P.requests t) (c.state.threads t) (c.state.files (fileOf t)) = some e →
    .taken userId time ∈ e.printed →
    c.clock < (P.requests t).requestTime + P.patienceTime ∧ shown time = c.clock

/-! ### What a thread knows of the clock -/

/-- The clock, seen from the thread: what it has slept, what is left of the sleep it is in, and what it has waited. After it has been taken up it makes no statement. -/
def Thread.onTime (r : Request P.numFiles) (clock remaining waited : ℕ) (th : Thread) : Prop :=
  match th.pc with
  | .sleepArrival => clock + remaining = sleepUnits r.requestTime + waited
  | .printMade => clock = sleepUnits r.requestTime + waited
  | .sleepSettle => clock + remaining = sleepUnits r.requestTime + waited + 1
  | .sleepRetry => (clock + remaining : ℤ) = sleepUnits r.requestTime + waited + th.waitTime + 1
  | .whileTest | .readWaitLock | .readTestDeleted | .readLoadCount | .readStoreCount _ | .readTestFirst | .readWaitDelete | .readPostLock
  | .readPrintTaken | .writeWaitWrite | .writeWaitLock | .writeTestDeleted | .writePostLock | .writePrintTaken | .deleteTryDelete
  | .deleteWaitWrite | .deleteWaitLock | .deleteTestDeleted | .deleteSetDeleted | .deletePostLock | .deletePrintTaken =>
    (clock : ℤ) = sleepUnits r.requestTime + waited + th.waitTime
  | _ => True

variable {r : Request P.numFiles} {th : Thread} {file : File} {e : Effect} {clock waited : ℕ} {c c' : Timed P} {t : Fin P.numRequests}

theorem threadStep_onTime (h : threadStep P r th file = some e)
    (htime : th.onTime r clock 0 waited) :
    e.thread.onTime r clock (sleepTime P r e.thread.pc) waited := by
  obtain ⟨pc, waitTime⟩ := th
  cases pc <;> simp only [threadStep, Option.bind_eq_some_iff, Option.some.injEq, reduceCtorEq] at h
  case sleepArrival | printMade | sleepSettle | sleepRetry =>
    cases h
    simp only [Thread.onTime, sleepTime] at htime ⊢
    omega
  case whileTest =>
    simp only [Thread.onTime] at htime
    split at h <;> cases h
    · cases r.operation <;> simp only [branch, Thread.onTime, sleepTime] <;> omega
    · trivial
  case readWaitLock | readWaitDelete | readWaitLockAgain | writeWaitWrite | writeWaitLock | deleteWaitWrite | deleteWaitLock =>
    obtain ⟨_, _, rfl⟩ := h
    exact htime
  case deleteTryDelete =>
    split at h <;> cases h
    · exact htime
    · simp only [Thread.onTime, sleepTime] at htime ⊢
      omega
  case readTestDeleted | readTestFirst | readTestLast | writeTestDeleted | deleteTestDeleted | afterLoop =>
    split at h <;> cases h <;> first | exact htime | trivial
  all_goals
    cases h
    first | exact htime | trivial

theorem waiting_of_threadStep_eq_none (h : threadStep P r th file = none) :
    th.pc.waiting = true ∨ th.pc = .readWaitLockAgain ∨ th.pc = .returned := by
  obtain ⟨pc, waitTime⟩ := th
  cases pc <;> simp only [threadStep, reduceCtorEq] at h
  case readWaitLock | readWaitDelete | writeWaitWrite | writeWaitLock | deleteWaitWrite | deleteWaitLock => exact .inl rfl
  case readWaitLockAgain => exact .inr (.inl rfl)
  case returned => exact .inr (.inr rfl)
  all_goals split at h <;> cases h

/-- The clock advances for a thread that sleeps, or waits for a semaphore, or has nothing more to say about it. -/
theorem Thread.onTime.tick {remaining : ℕ} (htime : th.onTime r clock remaining waited)
    (hsleeps : remaining ≤ sleepTime P r th.pc)
    (hpasses : 0 < remaining ∨ th.pc.waiting = true ∨ th.pc = .readWaitLockAgain ∨ th.pc = .returned) :
    th.onTime r (clock + 1) (remaining - 1) (waited + th.pc.waiting.toNat) := by
  obtain ⟨pc, waitTime⟩ := th
  rcases hpasses with hpos | hwaiting | hpc | hpc
  · cases pc <;> simp only [sleepTime, Thread.onTime, Pc.waiting, Bool.toNat_false] at hsleeps htime ⊢ <;> omega
  · cases pc <;> first | cases hwaiting; done | (simp only [Thread.onTime, Pc.waiting, Bool.toNat_true] at htime ⊢; omega)
  · cases hpc
    trivial
  · cases hpc
    trivial

/-! ### Runs -/

theorem Timed.next_run (h : c.next (.run t) = some c') :
    c.remaining t = 0 ∧ step c.state t = some c'.state ∧ c'.clock = c.clock ∧ c'.waited = c.waited ∧
      c'.remaining = update c.remaining t (sleepTime P (P.requests t) (c'.state.threads t).pc) := by
  simp only [Timed.next] at h
  split at h
  · rename_i hawake
    obtain ⟨s, hs, rfl⟩ := Option.map_eq_some_iff.mp h
    exact ⟨hawake, hs, rfl, rfl, rfl⟩
  · cases h

theorem Timed.next_tick (h : c.next .tick = some c') :
    (∀ t, 0 < c.remaining t ∨ threadStep P (P.requests t) (c.state.threads t) (c.state.files (fileOf t)) = none) ∧
      c' = { c with
        clock := c.clock + 1
        remaining := fun t => c.remaining t - 1
        waited := fun t => c.waited t + (c.state.threads t).pc.waiting.toNat } := by
  simp only [Timed.next] at h
  split at h
  · rename_i hpasses
    refine ⟨fun t => (hpasses.2 t).imp_right fun hnone => ?_, (Option.some.inj h).symm⟩
    rw [Option.isNone_iff_eq_none, step, Option.map_eq_none_iff] at hnone
    exact hnone
  · cases h

structure Timed.Kept (c : Timed P) : Prop where
  state : FileManager.Reachable P c.state
  sleeps : ∀ t, c.remaining t ≤ sleepTime P (P.requests t) (c.state.threads t).pc
  onTime : ∀ t, (c.state.threads t).onTime (P.requests t) c.clock (c.remaining t) (c.waited t)

theorem Timed.Kept.run (h : c.Kept) (hnext : c.next (.run t) = some c') : c'.Kept := by
  obtain ⟨hawake, hstep, hclock, hwaited, hremaining⟩ := Timed.next_run hnext
  obtain ⟨e, he, -, hthreads⟩ := step_eq_some hstep
  refine ⟨h.state.tail ⟨t, hstep⟩, fun u => ?_, fun u => ?_⟩
  · by_cases hut : u = t
    · subst hut
      rw [hremaining, update_self]
    · rw [hremaining, update_of_ne hut, hthreads, update_of_ne hut]
      exact h.sleeps u
  · rw [hclock, hwaited]
    by_cases hut : u = t
    · subst hut
      rw [hremaining, update_self, hthreads, update_self]
      exact threadStep_onTime he (hawake ▸ h.onTime u)
    · rw [hremaining, update_of_ne hut, hthreads, update_of_ne hut]
      exact h.onTime u

theorem Timed.Kept.tick (h : c.Kept) (hnext : c.next .tick = some c') : c'.Kept := by
  obtain ⟨hpasses, rfl⟩ := Timed.next_tick hnext
  exact
    { state := h.state
      sleeps := fun t => (Nat.sub_le _ 1).trans (h.sleeps t)
      onTime := fun t => (h.onTime t).tick (h.sleeps t) ((hpasses t).imp_right waiting_of_threadStep_eq_none) }

theorem Timed.Reachable.kept (h : c.Reachable) : c.Kept := by
  refine Transition.Reachable.invariant (I := Timed.Kept) ?_ ?_ h
  · rintro c rfl
    exact ⟨Transition.Reachable.of_init rfl, fun _ => le_refl _, fun t => by simp [Thread.onTime, Timed.initial, FileManager.initial]⟩
  · rintro c c' - hc ⟨action, hnext⟩
    cases action with
    | run t => exact hc.run hnext
    | tick => exact hc.tick hnext

/-- The clock at which a request is taken up: the sleeps that `handle_request` has counted and the waiting that it has not. -/
theorem Timed.Kept.taken (h : c.Kept) {userId time : ℤ}
    (he : threadStep P (P.requests t) (c.state.threads t) (c.state.files (fileOf t)) = some e)
    (hmem : .taken userId time ∈ e.printed) :
    time = (P.requests t).requestTime + (c.state.threads t).waitTime ∧
      0 < (c.state.threads t).waitTime ∧ (c.state.threads t).waitTime < P.patienceTime ∧
      (c.clock : ℤ) = sleepUnits (P.requests t).requestTime + c.waited t +
        (c.state.threads t).waitTime := by
  have hpc := pc_of_takesUp ⟨e, userId, time, he, hmem⟩
  have hpatient := h.state.patient t
  have htime := h.onTime t
  generalize c.state.threads t = th at he hpc hpatient htime
  obtain ⟨pc, waitTime⟩ := th
  rcases hpc with rfl | rfl | rfl
  all_goals
    cases he
    simp only [List.mem_singleton, Message.taken.injEq] at hmem
    exact ⟨hmem.2, hpatient.one_le_waitTime, hpatient.lt_patienceTime rfl, htime⟩

/-- A request that is taken up is so in time and with the right time printed if and only if no time
has passed while it waited for semaphores, its `request_time` was not negative, and the sum that is
printed does not overflow. -/
theorem patience_honoured_iff
    (hint : ∀ t, -2 ^ 31 ≤ (P.requests t).requestTime ∧ (P.requests t).requestTime < 2 ^ 31)
    (hpatience : P.patienceTime < 2 ^ 31) {c : Timed P} (h : c.Reachable) :
    c.Honoured ↔ ∀ t, TakesUp c.state t → 0 ≤ (P.requests t).requestTime ∧ c.waited t = 0 ∧
      (P.requests t).requestTime + (c.state.threads t).waitTime < 2 ^ 31 := by
  constructor
  · rintro hhonoured t ⟨e, userId, time, he, hmem⟩
    obtain ⟨-, hshown⟩ := hhonoured t e userId time he hmem
    obtain ⟨rfl, hpos, hlt, hclock⟩ := h.kept.taken he hmem
    have hrange := hint t
    rw [sleepUnits] at hclock
    rw [shown, Int.bmod_def] at hshown
    split at hshown <;> omega
  · intro hwaited t e userId time he hmem
    obtain ⟨hnonneg, hzero, hsum⟩ := hwaited t ⟨e, userId, time, he, hmem⟩
    obtain ⟨rfl, hpos, hlt, hclock⟩ := h.kept.taken he hmem
    have hrange := hint t
    rw [sleepUnits] at hclock
    rw [shown, Int.bmod_def]
    split <;> omega

def twoWrites : Params where
  readTime := 1
  writeTime := 10
  deleteTime := 1
  numFiles := 1
  maxConcurrent := 1
  patienceTime := 5
  numRequests := 2
  requests := fun t => { userId := t + 1, fileId := ⟨0, Nat.one_pos⟩, operation := .write, requestTime := 0 }

def turns (threads : List (Fin 2)) : List (Action twoWrites) := threads.map fun t => .run t

def firstTaken : List (Action twoWrites) := turns [0, 0, 1, 1] ++ [.tick] ++ turns [0, 0, 0, 0, 0, 0]

def secondTaken : List (Action twoWrites) := firstTaken ++ turns [0, 1, 1] ++ List.replicate 10 .tick ++ turns [0, 0, 0, 1, 1, 1, 1]

/-- Either thread prints this line when it is taken up after a single `sleep(1)`. -/
theorem threadStep_twoWrites {c : Timed twoWrites} {t : Fin 2} (hthread : c.state.threads t = ⟨.writePrintTaken, 1⟩) :
    threadStep twoWrites (twoWrites.requests t) (c.state.threads t) (c.state.files (0 : Fin 1)) =
      some { thread := ⟨.writeSleep, 1⟩, file := c.state.files (0 : Fin 1), printed := [.taken (t + 1) 1] } := by
  rw [hthread]
  rfl

theorem patience_honoured_iff_first : ∃ c : Timed twoWrites, c.Reachable ∧ c.clock = 1 ∧
    TakesUp c.state (0 : Fin 2) ∧
    (c.Honoured ↔ ∀ t, TakesUp c.state t → 0 ≤ (twoWrites.requests t).requestTime ∧ c.waited t = 0 ∧
      (twoWrites.requests t).requestTime + (c.state.threads t).waitTime < 2 ^ 31) := by
  obtain ⟨c, hreach, hclock, hthread⟩ : ∃ c : Timed twoWrites, c.Reachable ∧ c.clock = 1 ∧
      c.state.threads (0 : Fin 2) = ⟨.writePrintTaken, 1⟩ :=
    Transition.exists_reachable_of_schedule rfl firstTaken (by decide)
  refine ⟨c, hreach, hclock, ⟨_, _, _, threadStep_twoWrites hthread, List.mem_singleton.mpr rfl⟩,
    patience_honoured_iff (fun _ => ?_) (by decide) hreach⟩
  exact ⟨show (-2 ^ 31 : ℤ) ≤ 0 by decide, show (0 : ℤ) < 2 ^ 31 by decide⟩

/-- The second WRITE is taken up at time 11, six seconds after its user should have gone, and prints the time 1. -/
theorem exists_impatient_write : ∃ c : Timed twoWrites, c.Reachable ∧ c.clock = 11 ∧
    ∃ e, threadStep twoWrites (twoWrites.requests (1 : Fin 2)) (c.state.threads (1 : Fin 2)) (c.state.files (0 : Fin 1)) = some e ∧
      e.printed = [.taken 2 1] ∧ ¬ c.Honoured := by
  obtain ⟨c, hreach, hclock, hthread⟩ : ∃ c : Timed twoWrites, c.Reachable ∧ c.clock = 11 ∧
      c.state.threads (1 : Fin 2) = ⟨.writePrintTaken, 1⟩ :=
    Transition.exists_reachable_of_schedule rfl secondTaken (by decide)
  have hstep := threadStep_twoWrites hthread
  refine ⟨c, hreach, hclock, _, hstep, rfl, fun hhonoured => ?_⟩
  have hlate := (hhonoured (1 : Fin 2) _ _ _ hstep (List.mem_singleton.mpr rfl)).2
  rw [hclock] at hlate
  cases hlate

end AdvancedXv6.FileManager
