import AdvancedXv6.FileManager.Limit

/-!
# Deadlocks

Every step of a thread brings it nearer to its return, so a run can only end: in a state where every thread has returned, or in one where the others all wait for a semaphore. The second is a deadlock. What a waiting thread can hold decides whether there is one: a thread that waits for `lock` may hold `write_lock` and `delete_lock`, a thread that waits for `write_lock` may hold `delete_lock`, and a first reader that waits for `delete_lock` holds a unit of `lock`. With `max_concurrent = 1` that closes a cycle between a reader and a deleter. With a larger value the cycle is open, but two readers can leave `delete_lock` at zero with nobody to post it.
-/

namespace AdvancedXv6.FileManager

open Weights Relation
open Transition (StepOf)

variable {P : Params}

/-! ### Every step goes forward -/

/-- The number of operations a thread still has before it, at most, in this round of its loop. -/
def Pc.rank : Pc → ℕ
  | .sleepArrival => 3
  | .printMade => 2
  | .sleepSettle => 1
  | .whileTest => 40
  | .readWaitLock => 39
  | .readTestDeleted => 38
  | .readPrintDeclined => 37
  | .readPostDeclined => 36
  | .readLoadCount => 35
  | .readStoreCount _ => 34
  | .readTestFirst => 33
  | .readWaitDelete => 32
  | .readPostLock => 31
  | .readPrintTaken => 30
  | .readSleep => 29
  | .readPrintCompleted => 28
  | .readWaitLockAgain => 27
  | .readLoadCountAgain => 26
  | .readStoreCountAgain _ => 25
  | .readTestLast => 24
  | .readPostDelete => 23
  | .readPostLockAgain => 22
  | .writeWaitWrite => 39
  | .writeWaitLock => 38
  | .writeTestDeleted => 37
  | .writePrintDeclined => 36
  | .writePostLockDeclined => 35
  | .writePostWriteDeclined => 34
  | .writePostLock => 33
  | .writePrintTaken => 32
  | .writeSleep => 31
  | .writePrintCompleted => 30
  | .writePostWrite => 29
  | .deleteTryDelete => 39
  | .deleteWaitWrite => 38
  | .deleteWaitLock => 37
  | .deleteTestDeleted => 36
  | .deletePrintDeclined => 35
  | .deletePostLockDeclined => 34
  | .deletePostWriteDeclined => 33
  | .deletePostDeleteDeclined => 32
  | .deleteSetDeleted => 31
  | .deletePostLock => 30
  | .deletePrintTaken => 29
  | .deleteSleep => 28
  | .deletePrintCompleted => 27
  | .deletePostWrite => 26
  | .deletePostDelete => 25
  | .sleepRetry => 2
  | .afterLoop => 1
  | .returned => 0

/-- The rounds a thread has left: one more than its patience before the loop, the rest of its patience from then on. -/
def roundsLeft (P : Params) (th : Thread) : ℕ :=
  match th.pc with
  | .sleepArrival | .printMade | .sleepSettle => P.patienceTime.toNat + 1
  | _ => (P.patienceTime - th.waitTime).toNat

def threadMeasure (P : Params) (th : Thread) : ℕ := 64 * roundsLeft P th + th.pc.rank

variable {th : Thread} {file : File} {s' : State P} {pc : Pc} {t b : Fin P.numRequests} {w : ℤ} {r : Request P.numFiles}

theorem threadStep_measure {e : Effect}
    (h : threadStep P r th file = some e) (hpatient : Patient P r th) :
    threadMeasure P e.thread < threadMeasure P th := by
  have htime := hpatient.lt_patienceTime
  obtain ⟨pc, waitTime⟩ := th
  cases pc <;> simp only [threadStep, Option.bind_eq_some_iff, Option.some.injEq, reduceCtorEq] at h
  case sleepSettle =>
    cases h
    simp only [threadMeasure, roundsLeft, Pc.rank]
    omega
  case sleepRetry =>
    cases h
    have hlt : waitTime < P.patienceTime := htime rfl
    simp only [threadMeasure, roundsLeft, Pc.rank]
    omega
  case whileTest =>
    split at h <;> cases h
    · cases r.operation <;> simp [threadMeasure, roundsLeft, branch, Pc.rank]
    · simp [threadMeasure, roundsLeft, Pc.rank]
  case readWaitLock | readWaitDelete | readWaitLockAgain | writeWaitWrite | writeWaitLock | deleteWaitWrite | deleteWaitLock =>
    obtain ⟨_, _, rfl⟩ := h
    simp [threadMeasure, roundsLeft, Pc.rank]
  case readTestDeleted | readTestFirst | readTestLast | writeTestDeleted | deleteTestDeleted | afterLoop | deleteTryDelete =>
    split at h <;> cases h <;> simp [threadMeasure, roundsLeft, Pc.rank]
  all_goals
    cases h
    simp [threadMeasure, roundsLeft, Pc.rank]

def measure (s : State P) : ℕ := total (fun _ th => threadMeasure P th) s.threads

theorem Reachable.measure_lt {s : State P} (hs : Reachable P s) (hstep : StepOf step s s') :
    measure s' < measure s := by
  obtain ⟨mover, hmove⟩ := hstep
  obtain ⟨e, he, _, hthreads⟩ := step_eq_some hmove
  have htotal := total_update (fun _ th => threadMeasure P th) s.threads mover e.thread
  have hlt := threadStep_measure he (hs.patient mover)
  unfold measure
  rw [hthreads]
  omega

/-! ### Threads that wait -/

def Pc.waitsLock : Pc → Bool
  | .readWaitLock | .readWaitLockAgain | .writeWaitLock | .deleteWaitLock => true
  | _ => false

def Pc.waitsWrite : Pc → Bool
  | .writeWaitWrite | .deleteWaitWrite => true
  | _ => false

/-- A thread has no step when it has returned, or when the semaphore it waits for is at zero. -/
inductive Stuck (pc : Pc) (file : File) : Prop where
  | returned (hpc : pc = .returned)
  | lock (hpc : pc.waitsLock = true) (hzero : file.lock = 0)
  | write (hpc : pc.waitsWrite = true) (hzero : file.writeLock = 0)
  | delete (hpc : pc = .readWaitDelete) (hzero : file.deleteLock = 0)

theorem semWait_eq_none {value : ℕ} (h : semWait value = none) : value = 0 := by
  unfold semWait at h
  split at h
  · cases h
  · omega

theorem threadStep_eq_none
    (h : threadStep P r th file = none) : Stuck th.pc file := by
  obtain ⟨pc, waitTime⟩ := th
  cases pc <;> simp only [threadStep, Option.bind_eq_none_iff, reduceCtorEq, imp_false, ← Option.eq_none_iff_forall_ne_some] at h
  case readWaitLock | readWaitLockAgain | writeWaitLock | deleteWaitLock => exact .lock rfl (semWait_eq_none h)
  case writeWaitWrite | deleteWaitWrite => exact .write rfl (semWait_eq_none h)
  case readWaitDelete => exact .delete rfl (semWait_eq_none h)
  case returned => exact .returned rfl
  all_goals
    split at h <;> cases h

theorem Pc.not_holdsLock_of_waitsLock (h : pc.waitsLock = true) : pc.holdsLock = false := by
  cases pc <;> first | rfl | cases h

theorem Pc.not_holds_of_waitsWrite (h : pc.waitsWrite = true) : pc.holdsLock = false ∧ pc.holdsWrite = false := by
  cases pc <;> first | exact ⟨rfl, rfl⟩ | cases h

theorem Stuck.of_holdsLock (h : Stuck pc file) (hholds : pc.holdsLock = true) :
    pc = .readWaitDelete ∧ file.deleteLock = 0 := by
  cases h with
  | returned hpc => subst hpc; cases hholds
  | lock hpc =>
    rw [Pc.not_holdsLock_of_waitsLock hpc] at hholds
    cases hholds
  | write hpc =>
    rw [(Pc.not_holds_of_waitsWrite hpc).1] at hholds
    cases hholds
  | delete hpc hzero => exact ⟨hpc, hzero⟩

theorem Stuck.of_holdsWrite (h : Stuck pc file) (hholds : pc.holdsWrite = true) : file.lock = 0 := by
  cases h with
  | returned hpc | delete hpc => subst hpc; cases hholds
  | lock _ hzero => exact hzero
  | write hpc =>
    rw [(Pc.not_holds_of_waitsWrite hpc).2] at hholds
    cases hholds

theorem Stuck.of_holdsDelete (h : Stuck pc file) (hholds : pc.holdsDelete = true) :
    file.lock = 0 ∨ file.writeLock = 0 := by
  cases h with
  | returned hpc | delete hpc => subst hpc; cases hholds
  | lock _ hzero => exact .inl hzero
  | write _ hzero => exact .inr hzero

/-! ### Files on which no thread waits for ever -/

def WaitsOrdered (P : Params) (f : Fin P.numFiles) : Prop :=
  if P.maxConcurrent = 1 then requestCount P f .read = 0 ∨ requestCount P f .delete = 0 else requestCount P f .read ≤ 1

instance (f : Fin P.numFiles) : Decidable (WaitsOrdered P f) := by
  unfold WaitsOrdered
  infer_instance

theorem WaitsOrdered.guarded {f : Fin P.numFiles} (h : WaitsOrdered P f) : ReadsGuarded P f := by
  unfold WaitsOrdered at h
  split at h
  · exact .inl ‹_›
  · exact .inr (.inr h)

theorem ReadersOk.exists_deleter {f : Fin P.numFiles} {s : State P} (h : ReadersOk f s) (hexcl : ReadExclusive f s)
    {r : Fin P.numRequests} (hr : fileOf r = f) (hpc : (s.threads r).pc = .readWaitDelete)
    (hzero : (s.files f).deleteLock = 0) : 0 < countAt f Pc.holdsDelete s := by
  have htokens := h.tokens_eq
  have hentering := one_le_countAt (Pc.entering (s.files f).readCount) (s := s) hr (by rw [hpc]; rfl)
  have hleaving : countAt f (Pc.leaving (s.files f).readCount) s = 0 :=
    hexcl.countAt_eq_zero hr (by rw [hpc]; rfl) (fun _ hp => Pc.inReadSection_of_leaving hp) (by rw [hpc]; rfl)
  rw [hzero, hleaving, h.first r hr hpc] at htokens
  rw [h.first r hr hpc] at hentering
  simp only [le_refl, decide_true, Bool.toNat_true] at htokens
  omega

section Stuck

variable {f : Fin P.numFiles} {s : State P} (hs : Reachable P s) (hwaits : WaitsOrdered P f)
  (hstuck : ∀ t, fileOf t = f → Stuck (s.threads t).pc (s.files f))

include hs hwaits hstuck

/-- If nothing moves on the file, its `lock` is not used up: only first readers that wait for `delete_lock` could hold it. -/
theorem lock_pos_of_stuck (hk : 1 ≤ P.maxConcurrent) : 0 < (s.files f).lock := by
  by_contra hlock
  have hholders := hs.lock_conserved f
  have hexcl := hs.readExclusive hwaits.guarded
  have hle : countAt f Pc.holdsLock s ≤ countAt f Pc.inReadSection s := countAt_mono fun t hf hholds => by
    rw [((hstuck t hf).of_holdsLock hholds).1]
    rfl
  obtain ⟨t, hf, hholds⟩ := exists_of_countAt_pos (show 0 < countAt f Pc.holdsLock s by omega)
  obtain ⟨hpc, hzero⟩ := (hstuck t hf).of_holdsLock hholds
  have hdeleter := (hs.readersOk hwaits.guarded).exists_deleter hexcl hf hpc hzero
  have hreads := hs.countAt_le_requestCount f Pc.inReadSection fun _ hp => Pc.operation_of_inReadSection hp
  have hdeletes := hs.countAt_le_requestCount f Pc.holdsDelete fun _ hp => Pc.operation_of_holdsDelete hp
  unfold ReadExclusive at hexcl
  unfold WaitsOrdered at hwaits
  split at hwaits <;> omega

theorem writeLock_pos_of_stuck (hk : 1 ≤ P.maxConcurrent) : 0 < (s.files f).writeLock := by
  have hlock := lock_pos_of_stuck hs hwaits hstuck hk
  have hholders := hs.writeLock_conserved f
  have hnone : countAt f Pc.holdsWrite s = 0 := countAt_eq_zero fun t hf => by
    by_contra hholds
    rw [Bool.not_eq_false] at hholds
    have hzero := (hstuck t hf).of_holdsWrite hholds
    omega
  omega

theorem returned_of_stuck (hk : 1 ≤ P.maxConcurrent) (hf : fileOf t = f) :
    (s.threads t).pc = .returned := by
  have hlock := lock_pos_of_stuck hs hwaits hstuck hk
  have hwrite := writeLock_pos_of_stuck hs hwaits hstuck hk
  cases hstuck t hf with
  | returned hpc => exact hpc
  | lock _ hzero | write _ hzero => omega
  | delete hpc hzero =>
    obtain ⟨d, hdf, hholds⟩ := exists_of_countAt_pos
      ((hs.readersOk hwaits.guarded).exists_deleter (hs.readExclusive hwaits.guarded) hf hpc hzero)
    have hblocked := (hstuck d hdf).of_holdsDelete hholds
    omega

end Stuck

/-! ### Deadlock freedom -/

/-- In every reachable state with a thread that has not returned some thread can take a step, and there is no infinite run: every run can be continued until all threads have returned, and ends there. -/
structure DeadlockFree (P : Params) : Prop where
  can_step : ∀ s, Reachable P s → (∃ t, (s.threads t).pc ≠ .returned) → ∃ t s', step s t = some s'
  joins : ∀ s, Reachable P s → ∃ s', ReflTransGen (StepOf step) s s' ∧ ∀ t, (s'.threads t).pc = .returned
  not_infinite : ∀ run : ℕ → State P, Reachable P (run 0) → ¬ ∀ n, StepOf step (run n) (run (n + 1))

variable {s : State P} {f : Fin P.numFiles}

theorem stuck_of_terminal (hterminal : ∀ s', ¬ StepOf step s s') (t : Fin P.numRequests) :
    Stuck (s.threads t).pc (s.files (fileOf t)) := by
  apply threadStep_eq_none
  by_contra hne
  obtain ⟨e, he⟩ := Option.ne_none_iff_exists'.mp hne
  exact hterminal _ ⟨t, by rw [step, he]; rfl⟩

/-- A program in which every state without a step has only threads that have returned is free of deadlocks. -/
theorem deadlockFree_of_terminal (h : ∀ s, Reachable P s → (∀ s', ¬ StepOf step s s') → ∀ t, (s.threads t).pc = .returned) :
    DeadlockFree P where
  can_step := by
    rintro s hs ⟨t, ht⟩
    by_contra hnone
    push Not at hnone
    exact ht (h s hs (fun s' ⟨u, hu⟩ => hnone u s' hu) t)
  joins := by
    intro s hs
    obtain ⟨s', hrun, hterminal⟩ := Transition.Reachable.exists_terminal measure (fun _ _ hr => Reachable.measure_lt hr) hs
    exact ⟨s', hrun, h s' (Transition.Reachable.trans hs hrun) hterminal⟩
  not_infinite := fun _ hs => Transition.Reachable.not_infinite measure (fun _ _ hr => Reachable.measure_lt hr) hs

theorem deadlockFree_of_waitsOrdered (hk : 1 ≤ P.maxConcurrent) (hwaits : ∀ f, WaitsOrdered P f) : DeadlockFree P := by
  refine deadlockFree_of_terminal fun s hs hterminal t => ?_
  exact returned_of_stuck hs (hwaits (fileOf t)) (fun u hu => hu ▸ stuck_of_terminal hterminal u) hk rfl

theorem Pc.operation_isSome_of_waits (h : Stuck pc file) (hnot : pc ≠ .returned) :
    pc.operation.isSome = true := by
  cases h with
  | returned hpc => exact absurd hpc hnot
  | lock hpc | write hpc => cases pc <;> first | rfl | cases hpc
  | delete hpc => rw [hpc]; rfl

theorem deadlockFree_of_impatient (hpatience : P.patienceTime ≤ 1) : DeadlockFree P := by
  refine deadlockFree_of_terminal fun s hs hterminal t => ?_
  by_contra hnot
  have hsome := Pc.operation_isSome_of_waits (stuck_of_terminal hterminal t) hnot
  rw [hs.operation_eq_none hpatience t] at hsome
  cases hsome

/-! ### Deadlocks -/

structure Deadlocked (s : State P) : Prop where
  waiting : ∃ t, (s.threads t).pc ≠ .returned
  blocked : ∀ t, step s t = none

theorem exists_deadlocked {I : State P → Prop} (hkeep : ∀ s s', Reachable P s → I s → StepOf step s s' → I s')
    (hwaiting : ∀ s, I s → ∃ t, (s.threads t).pc ≠ .returned) (hs : Reachable P s) (hI : I s) :
    ∃ s', Reachable P s' ∧ Deadlocked s' := by
  obtain ⟨s', hrun, hterminal⟩ := Transition.Reachable.exists_terminal measure (fun _ _ hr => Reachable.measure_lt hr) hs
  have hI' : Reachable P s' ∧ I s' := by
    clear hterminal
    induction hrun with
    | refl => exact ⟨hs, hI⟩
    | tail _ hlast ih => exact ⟨ih.1.tail hlast, hkeep _ _ ih.1 ih.2 hlast⟩
  refine ⟨s', hI'.1, hwaiting s' hI'.2, fun t => ?_⟩
  by_contra hne
  obtain ⟨s'', hstep⟩ := Option.ne_none_iff_exists'.mp hne
  exact hterminal s'' ⟨t, hstep⟩

theorem Deadlocked.not_deadlockFree (hs : Reachable P s) (h : Deadlocked s) : ¬ DeadlockFree P := by
  intro hfree
  obtain ⟨t, s', hstep⟩ := hfree.can_step s hs h.waiting
  rw [h.blocked t] at hstep
  cases hstep

theorem step_of_returned (hpc : (s.threads t).pc = .returned) : step s t = none := by
  simp only [step, threadStep, hpc, Option.map_none]

theorem step_of_readWaitDelete (hpc : (s.threads t).pc = .readWaitDelete)
    (hzero : (s.files (fileOf t)).deleteLock = 0) : step s t = none := by
  simp only [step, threadStep, hpc, hzero, semWait, Nat.lt_irrefl, if_false, Option.bind_none, Option.map_none]

theorem step_of_deleteWaitLock (hpc : (s.threads t).pc = .deleteWaitLock)
    (hzero : (s.files (fileOf t)).lock = 0) : step s t = none := by
  simp only [step, threadStep, hpc, hzero, semWait, Nat.lt_irrefl, if_false, Option.bind_none, Option.map_none]

theorem thread_eq_of_step {mover : Fin P.numRequests} (hmove : step s mover = some s')
    (hblocked : step s t = none) : s'.threads t = s.threads t := by
  obtain ⟨e, _, _, hthreads⟩ := step_eq_some hmove
  have hne : t ≠ mover := by
    rintro rfl
    rw [hblocked] at hmove
    cases hmove
  rw [hthreads, Function.update_of_ne hne]

section Mutex

variable {r d : Fin P.numRequests} (hrf : fileOf r = f) (hdf : fileOf d = f)

structure Crossed (r d : Fin P.numRequests) (s : State P) : Prop where
  reader : (s.threads r).pc = .readWaitDelete
  deleter : (s.threads d).pc = .deleteWaitLock

include hrf hdf

section

variable (hone : P.maxConcurrent = 1) (hs : Reachable P s) (h : Crossed r d s)
include hone hs h

theorem Crossed.blocked :
    step s r = none ∧ step s d = none := by
  have hlock := hs.lock_conserved f
  have hholds := one_le_countAt Pc.holdsLock (s := s) hrf (by rw [h.reader]; rfl)
  have hguard : ReadsGuarded P f := .inl hone
  have hok := hs.readersOk hguard
  have hexcl : countAt f Pc.inReadSection s ≤ 1 := hs.readExclusive hguard
  have htokens := hok.tokens_eq
  have hdeleter := one_le_countAt Pc.holdsDelete (s := s) hdf (by rw [h.deleter]; rfl)
  have hentering : countAt f (Pc.entering (s.files f).readCount) s ≤ countAt f Pc.inReadSection s :=
    countAt_mono fun _ _ hp => Pc.inReadSection_of_entering hp
  have hpos : 1 ≤ (s.files f).readCount := by rw [hok.first r hrf h.reader]
  simp only [hpos, decide_true, Bool.toNat_true] at htokens
  exact ⟨step_of_readWaitDelete h.reader (by rw [hrf]; omega), step_of_deleteWaitLock h.deleter (by rw [hdf]; omega)⟩

theorem Crossed.exists_deadlocked :
    ∃ s', Reachable P s' ∧ Deadlocked s' := by
  refine FileManager.exists_deadlocked (I := Crossed r d) ?_ (fun s hI => ⟨r, by rw [hI.reader]; decide⟩) hs h
  rintro s s' hs hI ⟨mover, hmove⟩
  obtain ⟨hreader, hdeleter⟩ := hI.blocked hrf hdf hone hs
  refine ⟨?_, ?_⟩
  · rw [thread_eq_of_step hmove hreader]
    exact hI.reader
  · rw [thread_eq_of_step hmove hdeleter]
    exact hI.deleter

end

end Mutex

theorem exists_deadlocked_of_mutex {f : Fin P.numFiles} (hone : P.maxConcurrent = 1) (hpatience : 1 < P.patienceTime)
    (hreads : 0 < requestCount P f .read) (hdeletes : 0 < requestCount P f .delete) :
    ∃ s, Reachable P s ∧ Deadlocked s := by
  obtain ⟨r, hrf, hread⟩ := exists_of_requestCount_pos hreads
  obtain ⟨d, hdf, hdelete⟩ := exists_of_requestCount_pos hdeletes
  have hne : r ≠ d := by
    rintro rfl
    rw [hread] at hdelete
    cases hdelete
  obtain ⟨s1, hs1, hran1⟩ := (reachable_initial P).run_thread d 6 (⟨.deleteWaitLock, 1⟩, ⟨false, 0, 0 + 1, 0, 0⟩) (by
    rw [show (initial P).files (fileOf d) = ⟨false, 0, 0 + 1, 1, 1⟩ from congrArg initFile hone]
    exact threadRun_add (threadRun_delete_try hpatience hdelete rfl) (n := 1) rfl)
  obtain ⟨s2, hs2, hran2⟩ := hs1.run_thread r 9 (⟨.readWaitDelete, 1⟩, ⟨false, 1, 0, 0, 0⟩) (by
    rw [hran1.thread_of_ne hne, hrf, hran1.file_self hdf]
    exact threadRun_add (threadRun_read_store hpatience hread rfl rfl) (n := 2) rfl)
  refine Crossed.exists_deadlocked hrf hdf hone hs2 ⟨?_, ?_⟩
  · rw [hran2.thread_self]
  · rw [hran2.thread_of_ne hne.symm, hran1.thread_self]

/-! ### A reader that nobody will wake -/

def abandonedFile (n : ℕ) : File := { isDeleted := false, readCount := 1, lock := n + 1, writeLock := 1, deleteLock := 0 }

/-- A thread that goes round its loop without success runs out of patience and returns. -/
theorem threadRun_retry (r : Request P.numFiles) (file : File)
    (hround : ∀ w, w < P.patienceTime → ∃ n, threadRun P r n (⟨.whileTest, w⟩, file) = some (⟨.whileTest, w + 1⟩, file))
    (w : ℤ) : ∃ n w', threadRun P r n (⟨.whileTest, w⟩, file) = some (⟨.returned, w'⟩, file) := by
  induction hleft : (P.patienceTime - w).toNat generalizing w with
  | zero =>
    refine ⟨2, w, ?_⟩
    have hexit : threadStep P r ⟨.whileTest, w⟩ file = some { thread := ⟨.afterLoop, w⟩, file } := if_neg (by simp only; omega)
    have hlast : ∃ printed, threadStep P r ⟨.afterLoop, w⟩ file = some { thread := ⟨.returned, w⟩, file, printed } :=
      ⟨_, if_pos (by simp only; omega)⟩
    obtain ⟨printed, hlast⟩ := hlast
    simp only [threadRun, hexit, hlast, Option.bind_some]
  | succ left ih =>
    obtain ⟨n, hn⟩ := hround w (by omega)
    obtain ⟨m, w', hm⟩ := ih (w + 1) (by omega)
    exact ⟨n + m, w', threadRun_add hn hm⟩

theorem threadRun_delete_round (hdelete : r.operation = .delete)
    (hzero : file.deleteLock = 0) (hw : w < P.patienceTime) :
    threadRun P r 3 (⟨.whileTest, w⟩, file) = some (⟨.whileTest, w + 1⟩, file) := by
  have htest : threadStep P r ⟨.whileTest, w⟩ file = some { thread := ⟨.deleteTryDelete, w⟩, file } := by
    simp only [threadStep, hdelete, branch, if_pos hw]
  have htry : threadStep P r ⟨.deleteTryDelete, w⟩ file = some { thread := ⟨.sleepRetry, w⟩, file } := by
    simp only [threadStep, hzero, semWait, Nat.lt_irrefl, if_false]
  simp only [threadRun, htest, htry, Option.bind_some]
  rfl

theorem threadRun_other_round {text : String} (hother : r.operation = .other text)
    (hw : w < P.patienceTime) :
    threadRun P r 2 (⟨.whileTest, w⟩, file) = some (⟨.whileTest, w + 1⟩, file) := by
  have htest : threadStep P r ⟨.whileTest, w⟩ file = some { thread := ⟨.sleepRetry, w⟩, file } := by
    simp only [threadStep, hother, branch, if_pos hw]
  simp only [threadRun, htest, Option.bind_some]
  rfl

theorem threadRun_return (hpatience : 1 < P.patienceTime) (file : File) :
    threadRun P r 1 (⟨.afterLoop, 1⟩, file) = some (⟨.returned, 1⟩, file) := by
  have hlast : threadStep P r ⟨.afterLoop, 1⟩ file = some { thread := ⟨.returned, 1⟩, file } :=
    if_neg (by simp only; omega)
  simp only [threadRun, hlast, Option.bind_some]

theorem threadRun_pass (hpatience : 1 < P.patienceTime) (r : Request P.numFiles) (n : ℕ) :
    ∃ steps w, threadRun P r steps (fresh, abandonedFile n) = some (⟨.returned, w⟩, abandonedFile n) := by
  have hloop : threadRun P r 3 (fresh, abandonedFile n) = some (⟨.whileTest, 1⟩, abandonedFile n) := rfl
  cases hoperation : r.operation with
  | read =>
    have hrest : threadRun P r 7 (⟨.readSleep, 1⟩, ⟨false, 2, n + 1, 1, 0⟩) = some (⟨.afterLoop, 1⟩, abandonedFile n) := rfl
    exact ⟨11 + (7 + 1), 1, threadRun_add (threadRun_read_access hpatience hoperation (le_refl 1) n 1 0)
      (threadRun_add hrest (threadRun_return hpatience _))⟩
  | write =>
    have hrest : threadRun P r 3 (⟨.writeSleep, 1⟩, ⟨false, 1, n + 1, 0, 0⟩) = some (⟨.afterLoop, 1⟩, abandonedFile n) := rfl
    exact ⟨9 + (3 + 1), 1, threadRun_add (threadRun_write_access hpatience hoperation 1 n 0)
      (threadRun_add hrest (threadRun_return hpatience _))⟩
  | delete =>
    obtain ⟨m, w, hm⟩ := threadRun_retry r (abandonedFile n)
      (fun w hw => ⟨3, threadRun_delete_round hoperation rfl hw⟩) 1
    exact ⟨3 + m, w, threadRun_add hloop hm⟩
  | other text =>
    obtain ⟨m, w, hm⟩ := threadRun_retry r (abandonedFile n)
      (fun w hw => ⟨2, threadRun_other_round hoperation hw⟩) 1
    exact ⟨3 + m, w, threadRun_add hloop hm⟩

theorem Reachable.all_pass (hpatience : 1 < P.patienceTime) {n : ℕ}
    (others : Finset (Fin P.numRequests)) (hs : Reachable P s)
    (hothers : ∀ t ∈ others, fileOf t = f ∧ s.threads t = fresh) (hfile : s.files f = abandonedFile n) :
    ∃ s', Reachable P s' ∧ (∀ t ∈ others, (s'.threads t).pc = .returned) ∧
      (∀ t, t ∉ others → s'.threads t = s.threads t) ∧ s'.files f = abandonedFile n := by
  induction others using Finset.induction_on with
  | empty => exact ⟨s, hs, by simp, fun _ _ => rfl, hfile⟩
  | insert t others hnot ih =>
    obtain ⟨s1, hs1, hreturned, hrest, hfile1⟩ := ih fun u hu => hothers u (Finset.mem_insert_of_mem hu)
    obtain ⟨htf, hfresh⟩ := hothers t (Finset.mem_insert_self t others)
    obtain ⟨steps, w, hrun⟩ := threadRun_pass hpatience (P.requests t) n
    obtain ⟨s2, hs2, hran⟩ := hs1.run_thread t steps _ (by
      rw [hrest t hnot, hfresh, htf, hfile1]
      exact hrun)
    refine ⟨s2, hs2, fun u hu => ?_, fun u hu => ?_, hran.file_self htf⟩
    · rcases Finset.mem_insert.mp hu with rfl | hmem
      · rw [hran.thread_self]
      · rw [hran.thread_of_ne (ne_of_mem_of_not_mem hmem hnot)]
        exact hreturned u hmem
    · rw [Finset.mem_insert, not_or] at hu
      rw [hran.thread_of_ne hu.1]
      exact hrest u hu.2

structure Abandoned (f : Fin P.numFiles) (b : Fin P.numRequests) (s : State P) : Prop where
  reader : fileOf b = f ∧ (s.threads b).pc = .readWaitDelete
  deleteLock_eq : (s.files f).deleteLock = 0
  others : ∀ t, fileOf t = f → t ≠ b → (s.threads t).pc = .returned

theorem Abandoned.blocked (h : Abandoned f b s)
    (hf : fileOf t = f) : step s t = none := by
  by_cases heq : t = b
  · rw [heq]
    exact step_of_readWaitDelete h.reader.2 (by rw [h.reader.1]; exact h.deleteLock_eq)
  · exact step_of_returned (h.others t hf heq)

theorem Abandoned.exists_deadlocked (hs : Reachable P s)
    (h : Abandoned f b s) : ∃ s', Reachable P s' ∧ Deadlocked s' := by
  refine FileManager.exists_deadlocked (I := Abandoned f b) ?_ (fun s hI => ⟨b, by rw [hI.reader.2]; decide⟩) hs h
  rintro s s' - hI ⟨mover, hmove⟩
  have hother : fileOf mover ≠ f := by
    intro hf
    rw [hI.blocked hf] at hmove
    cases hmove
  have hfile : s'.files f = s.files f := by
    obtain ⟨e, _, hfiles, _⟩ := step_eq_some hmove
    rw [hfiles, Function.update_of_ne hother.symm]
  refine ⟨⟨hI.reader.1, ?_⟩, ?_, fun t hf hne => ?_⟩
  · rw [thread_eq_of_step hmove (hI.blocked hI.reader.1)]
    exact hI.reader.2
  · rw [hfile]
    exact hI.deleteLock_eq
  · rw [thread_eq_of_step hmove (hI.blocked hf)]
    exact hI.others t hf hne

/-- The second reader counts itself, the first one leaves without posting `delete_lock`, and the second one then takes itself for the first. -/
theorem exists_deadlocked_of_two_readers (htwo : 2 ≤ P.maxConcurrent) (hpatience : 1 < P.patienceTime)
    (hreads : 1 < requestCount P f .read) : ∃ s, Reachable P s ∧ Deadlocked s := by
  obtain ⟨a, b, hne, ⟨haf, haread⟩, ⟨hbf, hbread⟩⟩ := exists_ne_of_one_lt_requestCount hreads
  obtain ⟨n, hn⟩ := Nat.exists_eq_add_of_le' htwo
  obtain ⟨s1, hs1, hran1⟩ := (reachable_initial P).run_thread a 12 (⟨.readSleep, 1⟩, ⟨false, 1, (n + 1) + 1, 1, 0⟩)
    (threadRun_add (threadRun_read_store hpatience haread (show _ = (n + 1) + 1 from hn) rfl) (n := 5) rfl)
  obtain ⟨s2, hs2, hran2⟩ := hs1.run_thread b 8 (⟨.readTestFirst, 1⟩, ⟨false, 2, n + 1, 1, 0⟩) (by
    rw [hran1.thread_of_ne hne.symm, hbf, hran1.file_self haf]
    exact threadRun_add (threadRun_read_store hpatience hbread rfl rfl) (n := 1) rfl)
  obtain ⟨s3, hs3, hran3⟩ := hs2.run_thread a 8 (⟨.returned, 1⟩, abandonedFile n) (by
    rw [hran2.thread_of_ne hne, hran1.thread_self, haf, hran2.file_self hbf]
    have hlast : threadRun P (P.requests a) 7 (⟨.readSleep, 1⟩, ⟨false, 2, n + 1, 1, 0⟩) =
      some (⟨.afterLoop, 1⟩, abandonedFile n) := rfl
    exact threadRun_add hlast (threadRun_return hpatience _))
  obtain ⟨s4, hs4, hran4⟩ := hs3.run_thread b 1 (⟨.readWaitDelete, 1⟩, abandonedFile n) (by
    rw [hran3.thread_of_ne hne.symm, hran2.thread_self, hbf, hran3.file_self haf]
    rfl)
  have hfresh : ∀ t, t ≠ a → t ≠ b → s4.threads t = fresh := fun t hta htb => by
    rw [hran4.thread_of_ne htb, hran3.thread_of_ne hta, hran2.thread_of_ne htb, hran1.thread_of_ne hta]
    rfl
  obtain ⟨s5, hs5, hreturned, hrest, hfile⟩ := hs4.all_pass hpatience
    (Finset.univ.filter fun t => fileOf t = f ∧ t ≠ a ∧ t ≠ b)
    (fun t ht => by
      obtain ⟨hf, hta, htb⟩ := (Finset.mem_filter.mp ht).2
      exact ⟨hf, hfresh t hta htb⟩) (hran4.file_self hbf)
  refine Abandoned.exists_deadlocked hs5 (f := f) (b := b) ⟨⟨hbf, ?_⟩, by rw [hfile]; rfl, fun t hf htb => ?_⟩
  · rw [hrest b (by simp), hran4.thread_self]
  · by_cases hta : t = a
    · rw [hta, hrest a (by simp), hran4.thread_of_ne hne, hran3.thread_self]
    · exact hreturned t (Finset.mem_filter.mpr ⟨Finset.mem_univ t, hf, hta, htb⟩)

/-- The program is free of deadlocks exactly when the waits on each file have no cycle. -/
theorem deadlockFree_iff (P : Params) (hk : 1 ≤ P.maxConcurrent) :
    DeadlockFree P ↔ (P.patienceTime ≤ 1 ∨ ∀ f, WaitsOrdered P f) := by
  constructor
  · intro hfree
    by_contra hcond
    push Not at hcond
    obtain ⟨hpatience, f, hwaits⟩ := hcond
    have hdead : ∃ s, Reachable P s ∧ Deadlocked s := by
      unfold WaitsOrdered at hwaits
      split at hwaits
      · push Not at hwaits
        exact exists_deadlocked_of_mutex ‹_› hpatience (Nat.pos_of_ne_zero hwaits.1) (Nat.pos_of_ne_zero hwaits.2)
      · exact exists_deadlocked_of_two_readers (by omega) hpatience (Nat.lt_of_not_le hwaits)
    obtain ⟨s, hs, hdead⟩ := hdead
    exact hdead.not_deadlockFree hs hfree
  · rintro (hpatience | hwaits)
    · exact deadlockFree_of_impatient hpatience
    · exact deadlockFree_of_waitsOrdered hk hwaits

theorem deadlockFree_sample_write : DeadlockFree (sampleInput 1 .write) :=
  (deadlockFree_iff (sampleInput 1 .write) (by decide)).mpr (.inr (by decide))

/-- With `max_concurrent = 1` the DELETE holds `delete_lock` and waits for `lock`, and a READ holds `lock` and waits for `delete_lock`. -/
theorem not_deadlockFree_sample : ¬ DeadlockFree (sampleInput 1 .delete) := by
  obtain ⟨s, hs, hdead⟩ :=
    exists_deadlocked_of_mutex (P := sampleInput 1 .delete) (f := (0 : Fin 1)) rfl (by decide) (by decide) (by decide)
  exact hdead.not_deadlockFree hs

/-- Also with a deadlock every run is finite, and it can only end with threads that have returned or wait for a semaphore at zero. -/
theorem runs_end (hs : Reachable P s) :
    (∃ s', ReflTransGen (StepOf step) s s' ∧ ∀ t, Stuck (s'.threads t).pc (s'.files (fileOf t))) ∧
      ∀ run : ℕ → State P, run 0 = s → ¬ ∀ n, StepOf step (run n) (run (n + 1)) := by
  constructor
  · obtain ⟨s', hrun, hterminal⟩ := Transition.Reachable.exists_terminal measure (fun _ _ hr => Reachable.measure_lt hr) hs
    exact ⟨s', hrun, stuck_of_terminal hterminal⟩
  · rintro run rfl
    exact Transition.Reachable.not_infinite measure (fun _ _ hr => Reachable.measure_lt hr) hs

theorem runs_end_sample :
    ∃ s' : State (sampleInput 1 .delete), ReflTransGen (StepOf step) (initial _) s' ∧
    ∀ t, Stuck (s'.threads t).pc (s'.files (fileOf t)) :=
  (runs_end (reachable_initial _)).1

end AdvancedXv6.FileManager
