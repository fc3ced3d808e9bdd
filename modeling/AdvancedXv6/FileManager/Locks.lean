import AdvancedXv6.FileManager.Model

/-!
# What the semaphores `lock` and `write_lock` always guarantee

A thread gives back each unit of `lock` and of `write_lock` that it takes, on every path through `handle_request`. So the value of the semaphore and the units held by the threads of its file add up to the initial value, whatever `read_count` and `delete_lock` do.

The rest of the module is what every thread keeps for itself: the branch it is in is the branch of its request, and inside a branch its patience has not run out.
-/

namespace AdvancedXv6.FileManager

open Function Weights

variable {P : Params}

/-! ### Parts of `handle_request` -/

def Pc.inReadSection : Pc → Bool
  | .readTestDeleted | .readPrintDeclined | .readPostDeclined | .readLoadCount | .readStoreCount _
  | .readTestFirst | .readWaitDelete | .readPostLock | .readLoadCountAgain | .readStoreCountAgain _
  | .readTestLast | .readPostDelete | .readPostLockAgain => true
  | _ => false

def Pc.holdsLock : Pc → Bool
  | .writeTestDeleted | .writePrintDeclined | .writePostLockDeclined | .writePostLock
  | .deleteTestDeleted | .deletePrintDeclined | .deletePostLockDeclined | .deleteSetDeleted
  | .deletePostLock => true
  | pc => pc.inReadSection

def Pc.holdsWrite : Pc → Bool
  | .writeWaitLock | .writeTestDeleted | .writePrintDeclined | .writePostLockDeclined
  | .writePostWriteDeclined | .writePostLock | .writePrintTaken | .writeSleep | .writePrintCompleted
  | .writePostWrite
  | .deleteWaitLock | .deleteTestDeleted | .deletePrintDeclined | .deletePostLockDeclined
  | .deletePostWriteDeclined | .deleteSetDeleted | .deletePostLock | .deletePrintTaken | .deleteSleep
  | .deletePrintCompleted | .deletePostWrite => true
  | _ => false

def Pc.operation : Pc → Option Operation
  | .readWaitLock | .readTestDeleted | .readPrintDeclined | .readPostDeclined | .readLoadCount
  | .readStoreCount _ | .readTestFirst | .readWaitDelete | .readPostLock | .readPrintTaken | .readSleep
  | .readPrintCompleted | .readWaitLockAgain | .readLoadCountAgain | .readStoreCountAgain _
  | .readTestLast | .readPostDelete | .readPostLockAgain => some .read
  | .writeWaitWrite | .writeWaitLock | .writeTestDeleted | .writePrintDeclined
  | .writePostLockDeclined | .writePostWriteDeclined | .writePostLock | .writePrintTaken | .writeSleep
  | .writePrintCompleted | .writePostWrite => some .write
  | .deleteTryDelete | .deleteWaitWrite | .deleteWaitLock | .deleteTestDeleted
  | .deletePrintDeclined | .deletePostLockDeclined | .deletePostWriteDeclined
  | .deletePostDeleteDeclined | .deleteSetDeleted | .deletePostLock | .deletePrintTaken | .deleteSleep
  | .deletePrintCompleted | .deletePostWrite | .deletePostDelete => some .delete
  | _ => none

def Pc.inLoop : Pc → Bool
  | .sleepRetry => true
  | pc => pc.operation.isSome

theorem Pc.inLoop_of_operation {pc : Pc} (h : pc.operation.isSome = true) : pc.inLoop = true := by
  cases pc <;> first | rfl | cases h

def countAt (f : Fin P.numFiles) (part : Pc → Bool) (s : State P) : ℕ :=
  total (fun t th => if fileOf t = f then (part th.pc).toNat else 0) s.threads

variable {f : Fin P.numFiles} {s s' : State P} {t : Fin P.numRequests} {part : Pc → Bool} {r : Request P.numFiles} {th : Thread} {file : File} {e : Effect}

theorem one_le_countAt (part : Pc → Bool)
    (hf : fileOf t = f) (hp : part (s.threads t).pc = true) : 1 ≤ countAt f part s := by
  have hle := le_total (fun t (th : Thread) => if fileOf t = f then (part th.pc).toNat else 0) s.threads t
  simp only [hf, hp, if_true, Bool.toNat_true] at hle
  exact hle

theorem two_le_countAt (part : Pc → Bool) {u : Fin P.numRequests} (hne : t ≠ u)
    (ht : fileOf t = f) (hu : fileOf u = f) (hpt : part (s.threads t).pc = true) (hpu : part (s.threads u).pc = true) :
    2 ≤ countAt f part s := by
  have hle := two_le_total (fun t (th : Thread) => if fileOf t = f then (part th.pc).toNat else 0) s.threads hne
  simp only [ht, hu, hpt, hpu, if_true, Bool.toNat_true] at hle
  exact hle

theorem exists_of_countAt_pos (hpos : 0 < countAt f part s) :
    ∃ t, fileOf t = f ∧ part (s.threads t).pc = true := by
  obtain ⟨t, ht⟩ := exists_pos_of_total_pos hpos
  by_cases hf : fileOf t = f
  · refine ⟨t, hf, ?_⟩
    cases hp : part (s.threads t).pc with
    | true => rfl
    | false => simp [hp] at ht
  · simp [hf] at ht

theorem countAt_eq_zero (hnone : ∀ t, fileOf t = f → part (s.threads t).pc = false) : countAt f part s = 0 := by
  refine total_eq_zero fun t => ?_
  by_cases hf : fileOf t = f
  · simp [hnone t hf]
  · simp [hf]

theorem countAt_mono {part' : Pc → Bool}
    (hle : ∀ t, fileOf t = f → part (s.threads t).pc = true → part' (s.threads t).pc = true) :
    countAt f part s ≤ countAt f part' s := by
  refine total_mono fun t => ?_
  by_cases hf : fileOf t = f
  · cases hp : part (s.threads t).pc with
    | false => simp
    | true => simp [hf, hle t hf hp]
  · simp [hf]

/-! ### One step of a thread -/

theorem semWait_eq_some {value value' : ℕ} (h : semWait value = some value') : value = value' + 1 := by
  unfold semWait at h
  split at h
  · cases h
    omega
  · cases h

/-- Every unit of `lock` and of `write_lock` that a step takes out of the semaphore it puts into the thread's hands, and back. -/
theorem threadStep_locks (h : threadStep P r th file = some e) :
    e.file.lock + e.thread.pc.holdsLock.toNat = file.lock + th.pc.holdsLock.toNat ∧
      e.file.writeLock + e.thread.pc.holdsWrite.toNat = file.writeLock + th.pc.holdsWrite.toNat := by
  obtain ⟨pc, waitTime⟩ := th
  cases pc <;> simp only [threadStep, Option.bind_eq_some_iff, Option.some.injEq, reduceCtorEq] at h
  case whileTest =>
    split at h <;> cases h
    · cases r.operation <;> exact ⟨rfl, rfl⟩
    · exact ⟨rfl, rfl⟩
  case readWaitLock | readWaitDelete | readWaitLockAgain | writeWaitWrite | writeWaitLock | deleteWaitWrite | deleteWaitLock =>
    obtain ⟨_, hwait, rfl⟩ := h
    simp only [semWait_eq_some hwait]
    exact ⟨rfl, rfl⟩
  case readTestDeleted | readTestFirst | readTestLast | writeTestDeleted | deleteTestDeleted | afterLoop | deleteTryDelete =>
    split at h <;> cases h <;> exact ⟨rfl, rfl⟩
  all_goals
    cases h
    exact ⟨rfl, rfl⟩

/-- Inside the branch of an operation the request asks for that operation and the thread is still patient. -/
structure Patient (P : Params) (r : Request P.numFiles) (th : Thread) : Prop where
  one_le_waitTime : 1 ≤ th.waitTime
  operation_eq : ∀ operation, th.pc.operation = some operation → r.operation = operation
  lt_patienceTime : th.pc.inLoop = true → th.waitTime < P.patienceTime

theorem threadStep_patient (h : threadStep P r th file = some e) (hpatient : Patient P r th) : Patient P r e.thread := by
  obtain ⟨hwait, hoperation, htime⟩ := hpatient
  obtain ⟨pc, waitTime⟩ := th
  cases pc <;> simp only [threadStep, Option.bind_eq_some_iff, Option.some.injEq, reduceCtorEq] at h
  case sleepSettle =>
    cases h
    exact ⟨le_refl _, by simp [Pc.operation], by simp [Pc.inLoop, Pc.operation]⟩
  case sleepRetry =>
    cases h
    exact ⟨by simp only at hwait ⊢; omega, by simp [Pc.operation], by simp [Pc.inLoop, Pc.operation]⟩
  case whileTest =>
    split at h <;> cases h
    · rename_i hlt
      refine ⟨hwait, ?_, fun _ => hlt⟩
      cases r.operation <;> simp [branch, Pc.operation]
    · exact ⟨hwait, by simp [Pc.operation], by simp [Pc.inLoop, Pc.operation]⟩
  case deleteTryDelete =>
    split at h <;> cases h
    · exact ⟨hwait, hoperation, htime⟩
    · exact ⟨hwait, by simp [Pc.operation], htime⟩
  case afterLoop =>
    split at h <;> cases h <;> exact ⟨hwait, by simp [Pc.operation], by simp [Pc.inLoop, Pc.operation]⟩
  case readWaitLock | readWaitDelete | readWaitLockAgain | writeWaitWrite | writeWaitLock | deleteWaitWrite | deleteWaitLock =>
    obtain ⟨_, _, rfl⟩ := h
    exact ⟨hwait, hoperation, htime⟩
  case readTestDeleted | readTestFirst | readTestLast | writeTestDeleted | deleteTestDeleted =>
    split at h <;> cases h <;> exact ⟨hwait, hoperation, htime⟩
  all_goals
    cases h
    first
      | exact ⟨hwait, hoperation, htime⟩
      | exact ⟨hwait, by simp [Pc.operation], by simp [Pc.inLoop, Pc.operation]⟩

/-! ### Steps of the system -/

theorem step_eq_some (h : step s t = some s') :
    ∃ e, threadStep P (P.requests t) (s.threads t) (s.files (fileOf t)) = some e ∧
      s'.files = update s.files (fileOf t) e.file ∧ s'.threads = update s.threads t e.thread := by
  simp only [step, Option.map_eq_some_iff] at h
  obtain ⟨e, he, rfl⟩ := h
  exact ⟨e, he, rfl, rfl⟩

theorem countAt_update (part : Pc → Bool)
    (hthreads : s'.threads = update s.threads t th) :
    countAt f part s' + (if fileOf t = f then (part (s.threads t).pc).toNat else 0) =
      countAt f part s + if fileOf t = f then (part th.pc).toNat else 0 := by
  unfold countAt
  rw [hthreads]
  exact total_update _ _ t th

theorem Reachable.thread_invariant {I : Fin P.numRequests → Thread → Prop}
    (hinit : ∀ t, I t { pc := .sleepArrival, waitTime := 1 })
    (hstep : ∀ t th file e, threadStep P (P.requests t) th file = some e → I t th → I t e.thread)
    (hs : Reachable P s) (t : Fin P.numRequests) : I t (s.threads t) := by
  refine Transition.Reachable.invariant (I := fun s => ∀ t, I t (s.threads t)) ?_ ?_ hs t
  · rintro s rfl
    exact hinit
  · rintro s s' _ hI ⟨mover, hmove⟩ other
    obtain ⟨e, he, _, hthreads⟩ := step_eq_some hmove
    rw [hthreads]
    by_cases heq : other = mover
    · subst heq
      rw [update_self]
      exact hstep _ _ _ e he (hI _)
    · rw [update_of_ne heq]
      exact hI other

/-- A quantity that each step trades between the file and the moving thread is conserved on every file. -/
theorem Reachable.conserved (value : File → ℕ) (part : Pc → Bool)
    (hpart : part .sleepArrival = false)
    (hstep : ∀ (r : Request P.numFiles) th file e, threadStep P r th file = some e →
      value e.file + (part e.thread.pc).toNat = value file + (part th.pc).toNat)
    (hs : Reachable P s) (f : Fin P.numFiles) :
    value (s.files f) + countAt f part s = value (initFile P.maxConcurrent) := by
  refine Transition.Reachable.invariant
    (I := fun s => ∀ f, value (s.files f) + countAt f part s = value (initFile P.maxConcurrent)) ?_ ?_ hs f
  · rintro s rfl f
    have hzero : countAt f part (initial P) = 0 := total_eq_zero fun t => by simp [initial, hpart]
    rw [hzero]
    rfl
  · rintro s s' _ hI ⟨mover, hmove⟩ f
    obtain ⟨e, he, hfiles, hthreads⟩ := step_eq_some hmove
    have hcount := countAt_update (f := f) part hthreads
    have htrade := hstep _ _ _ e he
    have hold := hI f
    rw [hfiles]
    by_cases hf : fileOf mover = f
    · subst hf
      rw [update_self]
      simp only [if_true] at hcount
      omega
    · rw [update_of_ne (Ne.symm hf)]
      simp only [if_neg hf] at hcount
      omega

/-! ### What holds in every reachable state -/

section

variable (hs : Reachable P s)
include hs

theorem Reachable.patient (t : Fin P.numRequests) :
    Patient P (P.requests t) (s.threads t) :=
  hs.thread_invariant (I := fun t th => Patient P (P.requests t) th)
    (fun _ => ⟨le_refl _, by simp [Pc.operation], by simp [Pc.inLoop, Pc.operation]⟩)
    (fun _ _ _ _ he hpatient => threadStep_patient he hpatient) t

theorem Reachable.lock_conserved (f : Fin P.numFiles) :
    (s.files f).lock + countAt f Pc.holdsLock s = P.maxConcurrent :=
  hs.conserved File.lock Pc.holdsLock rfl (fun _ _ _ _ he => (threadStep_locks he).1) f

theorem Reachable.writeLock_conserved (f : Fin P.numFiles) :
    (s.files f).writeLock + countAt f Pc.holdsWrite s = 1 :=
  hs.conserved File.writeLock Pc.holdsWrite rfl (fun _ _ _ _ he => (threadStep_locks he).2) f

theorem Reachable.countAt_le_requestCount (f : Fin P.numFiles) (part : Pc → Bool)
    {operation : Operation} (hpart : ∀ pc, part pc → pc.operation = some operation) :
    countAt f part s ≤ requestCount P f operation := by
  have hle : ∀ t, (if fileOf t = f then (part (s.threads t).pc).toNat else 0) ≤
      if (P.requests t).fileId = f ∧ (P.requests t).operation = operation then 1 else 0 := by
    intro t
    by_cases hf : fileOf t = f
    · cases hp : part (s.threads t).pc with
      | false => simp
      | true =>
        have hop := (hs.patient t).operation_eq operation (hpart _ hp)
        rw [if_pos hf, if_pos ⟨hf, hop⟩]
        exact le_refl 1
    · rw [if_neg hf]
      exact Nat.zero_le _
  calc countAt f part s
      ≤ ∑ t, if (P.requests t).fileId = f ∧ (P.requests t).operation = operation then 1 else 0 :=
        by
          unfold countAt total
          exact Finset.sum_le_sum fun t _ => hle t
    _ = requestCount P f operation := by
        rw [requestCount, Finset.card_filter]

theorem Reachable.operation_eq_none (hP : P.patienceTime ≤ 1)
    (t : Fin P.numRequests) : (s.threads t).pc.operation = none := by
  by_contra hne
  have hlt := (hs.patient t).lt_patienceTime (Pc.inLoop_of_operation (Option.isSome_iff_ne_none.mpr hne))
  have hwait := (hs.patient t).one_le_waitTime
  omega

end

end AdvancedXv6.FileManager
