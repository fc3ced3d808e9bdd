import AdvancedXv6.FileManager.Readers
import AdvancedXv6.FileManager.Schedules

/-!
# Readers and deleters

A deleter that has set `is_deleted` still holds `delete_lock`, and the readers as a group should hold it as long as one of them reads. This is so when `lock` is a mutex. When `lock` lets two threads in, a reader that has already passed the test of `is_deleted` can wait for `delete_lock` inside `lock` while the deleter goes through, and is taken up after the deletion.
-/

namespace AdvancedXv6.FileManager

open Function

variable {P : Params}

def Pc.deleting : Pc → Bool
  | .deletePostLock | .deletePrintTaken | .deleteSleep | .deletePrintCompleted | .deletePostWrite
  | .deletePostDelete => true
  | _ => false

def Pc.reading : Pc → Bool
  | .readSleep | .readPrintCompleted | .readWaitLockAgain | .readLoadCountAgain
  | .readStoreCountAgain _ => true
  | _ => false

def Pc.accepted : Pc → Bool
  | .readLoadCount | .readStoreCount _ => true
  | pc => pc.counted

/-- No READ between being taken up and its decrement while a DELETE of the file is between setting `is_deleted` and posting `delete_lock`, and no READ about to be taken up on a deleted file. -/
structure Excluded (s : State P) : Prop where
  not_reading : ∀ d r, fileOf d = fileOf r → (s.threads d).pc.deleting = true → (s.threads r).pc.reading = false
  not_deleted : ∀ t, (s.threads t).pc = .readPrintTaken → (s.files (fileOf t)).isDeleted = false

variable {pc : Pc} {f : Fin P.numFiles} {s : State P} {d r : Fin P.numRequests}

theorem Pc.holdsDelete_of_deleting (h : pc.deleting = true) : pc.holdsDelete = true := by
  cases pc <;> first | rfl | cases h

theorem Pc.counted_of_reading (h : pc.reading = true) : pc.counted = true := by
  cases pc <;> first | rfl | cases h

theorem Pc.not_entering_of_reading {count : ℤ} (h : pc.reading = true) : pc.entering count = false := by
  cases pc <;> first | rfl | cases h

theorem Pc.operation_of_holdsDelete (h : pc.holdsDelete = true) : pc.operation = some .delete := by
  cases pc <;> first | rfl | cases h

theorem Pc.operation_of_deleting (h : pc.deleting = true) : pc.operation = some .delete := by
  cases pc <;> first | rfl | cases h

theorem Pc.operation_of_accepted (h : pc.accepted = true) : pc.operation = some .read := by
  cases pc <;> first | rfl | cases h

theorem Pc.accepted_of_counted (h : pc.counted = true) : pc.accepted = true := by
  cases pc <;> first | rfl | cases h

theorem Pc.inReadSection_or_counted_of_accepted (h : pc.accepted = true) :
    pc.inReadSection = true ∨ (pc.counted = true ∧ ∀ count, pc.entering count = false) := by
  cases pc <;> first | exact .inl rfl | exact .inr ⟨rfl, fun _ => rfl⟩ | cases h

/-! ### A reader counted beside a deleter is entering -/

/-- While a deleter holds `delete_lock`, the only counted reader is the first one, still on its way to take it. -/
theorem ReadersOk.entering_of_holdsDelete (h : ReadersOk f s)
    (hd : fileOf d = f) (hr : fileOf r = f) (hdel : (s.threads d).pc.holdsDelete = true)
    (hcounted : (s.threads r).pc.counted = true) :
    (s.threads r).pc.entering (s.files f).readCount = true := by
  have htokens := h.tokens_eq
  have hcount := h.readCount_eq
  have hone := one_le_countAt Pc.counted hr hcounted
  have hholds := one_le_countAt Pc.holdsDelete hd hdel
  have hpos : 1 ≤ (s.files f).readCount := by omega
  simp only [hpos, decide_true, Bool.toNat_true] at htokens
  obtain ⟨first, hfile, hentering⟩ := exists_of_countAt_pos
    (show 0 < countAt f (Pc.entering (s.files f).readCount) s by omega)
  by_cases heq : r = first
  · rw [heq]
    exact hentering
  · have htwo := two_le_countAt Pc.counted heq hr hfile hcounted (Pc.counted_of_entering hentering)
    have hsole : (s.files f).readCount = 1 := by
      cases hpc : (s.threads first).pc <;> rw [hpc] at hentering <;>
        first
          | cases hentering; done
          | exact h.first first hfile hpc
          | exact of_decide_eq_true hentering
    omega

theorem ReadersOk.not_reading_of_deleting (h : ReadersOk f s)
    (hd : fileOf d = f) (hr : fileOf r = f) (hdel : (s.threads d).pc.deleting = true) :
    (s.threads r).pc.reading = false := by
  by_contra hreading
  rw [Bool.not_eq_false] at hreading
  have hentering := h.entering_of_holdsDelete hd hr (Pc.holdsDelete_of_deleting hdel) (Pc.counted_of_reading hreading)
  rw [Pc.not_entering_of_reading hreading] at hentering
  cases hentering

/-! ### A reader taken up on a file that is not deleted -/

theorem threadStep_isDeleted {r : Request P.numFiles} {th : Thread} {file : File} {e : Effect}
    (h : threadStep P r th file = some e) :
    (e.file.isDeleted = file.isDeleted ∨ th.pc = .deleteSetDeleted) ∧
      (e.thread.pc.accepted = true → th.pc ≠ .deleteSetDeleted ∧ (th.pc.accepted = true ∨ file.isDeleted = false)) := by
  obtain ⟨pc, waitTime⟩ := th
  cases pc <;> simp only [threadStep, Option.bind_eq_some_iff, Option.some.injEq, reduceCtorEq] at h
  case whileTest =>
    split at h <;> cases h
    · cases r.operation <;> simp [branch, Pc.accepted, Pc.counted]
    · simp [Pc.accepted, Pc.counted]
  case readWaitLock | readWaitDelete | readWaitLockAgain | writeWaitWrite | writeWaitLock | deleteWaitWrite | deleteWaitLock =>
    obtain ⟨_, _, rfl⟩ := h
    simp [Pc.accepted, Pc.counted]
  case readTestDeleted | readTestFirst | readTestLast | writeTestDeleted | deleteTestDeleted | deleteTryDelete | afterLoop =>
    split at h <;> cases h <;> simp_all [Pc.accepted, Pc.counted]
  all_goals
    cases h
    simp [Pc.accepted, Pc.counted]

/-- The flag is clear at points that are entered only where it is, if no thread at them meets one that sets it. -/
theorem Reachable.not_deleted_of (C : Pc → Bool)
    (hnew : ∀ {r : Request P.numFiles} {th : Thread} {file : File} {e : Effect}, threadStep P r th file = some e → C e.thread.pc = true →
      th.pc ≠ .deleteSetDeleted ∧ (C th.pc = true ∨ file.isDeleted = false))
    (hset : ∀ {s : State P} {t u : Fin P.numRequests}, Reachable P s → t ≠ u → fileOf t = fileOf u →
      C (s.threads t).pc = true → (s.threads u).pc ≠ .deleteSetDeleted)
    (hs : Reachable P s) (t : Fin P.numRequests) (hC : C (s.threads t).pc = true) : (s.files (fileOf t)).isDeleted = false := by
  revert t
  refine Transition.Reachable.invariant (I := fun s => ∀ t, C (s.threads t).pc = true → (s.files (fileOf t)).isDeleted = false) ?_ ?_ hs
  · rintro s rfl t _
    rfl
  · rintro s s' hreach hI ⟨mover, hmove⟩ t hC
    obtain ⟨e, he, hfiles, hthreads⟩ := step_eq_some hmove
    obtain ⟨hflag, _⟩ := threadStep_isDeleted he
    by_cases htm : t = mover
    · subst htm
      rw [hthreads, update_self] at hC
      obtain ⟨hnot, hwas⟩ := hnew he hC
      rw [hfiles, update_self, hflag.resolve_right hnot]
      exact hwas.elim (hI t) id
    · rw [hthreads, update_of_ne htm] at hC
      by_cases hf : fileOf t = fileOf mover
      · rw [hf, hfiles, update_self, hflag.resolve_right (hset hreach htm hf hC), ← hf]
        exact hI t hC
      · rw [hfiles, update_of_ne hf]
        exact hI t hC

/-- With `lock` a mutex, a file on which some reader is accepted is not deleted: the deleter that would set the flag holds `lock`, so the reader has left its section, and `delete_lock`, so it has not. -/
theorem Reachable.not_deleted_of_accepted (hone : P.maxConcurrent = 1) (hs : Reachable P s)
    (t : Fin P.numRequests) (haccepted : (s.threads t).pc.accepted = true) : (s.files (fileOf t)).isDeleted = false := by
  refine Reachable.not_deleted_of Pc.accepted (fun he => (threadStep_isDeleted he).2) (fun {s t u} hreach hne hf haccepted hset => ?_) hs t haccepted
  have hok := Reachable.readersOk (f := fileOf u) (.inl hone) hreach
  have hlock := Reachable.lock_conserved hreach (fileOf u)
  have hnosection : ¬ (s.threads t).pc.inReadSection = true := by
    intro hsection
    have htwo := two_le_countAt Pc.holdsLock hne hf rfl (Pc.holdsLock_of_inReadSection hsection) (by rw [hset]; rfl)
    omega
  rcases Pc.inReadSection_or_counted_of_accepted haccepted with hsection | ⟨hcounted, hpassed⟩
  · exact hnosection hsection
  · have hentering := hok.entering_of_holdsDelete rfl hf (by rw [hset]; rfl) hcounted
    rw [hpassed] at hentering
    cases hentering

/-! ### Files without deleters -/

theorem Reachable.not_deleted_of_no_delete (hnone : requestCount P f .delete = 0)
    (hs : Reachable P s) : (s.files f).isDeleted = false := by
  refine Transition.Reachable.invariant (I := fun s => (s.files f).isDeleted = false) ?_ ?_ hs
  · rintro s rfl
    rfl
  · rintro s s' hreach hI ⟨mover, hmove⟩
    obtain ⟨e, he, hfiles, _⟩ := step_eq_some hmove
    by_cases hf : f = fileOf mover
    · subst hf
      rw [hfiles, update_self]
      rcases (threadStep_isDeleted he).1 with hsame | hset
      · rw [hsame, hI]
      · have hle := Reachable.countAt_le_requestCount hreach (fileOf mover) Pc.holdsDelete
          fun _ hp => Pc.operation_of_holdsDelete hp
        have hone := one_le_countAt Pc.holdsDelete (s := s) (t := mover) rfl (by rw [hset]; rfl)
        omega
    · rw [hfiles, update_of_ne hf, hI]

/-! ### When readers and deleters exclude each other -/

theorem Reachable.excluded_of_mutex (hone : P.maxConcurrent = 1) (hs : Reachable P s) : Excluded s where
  not_reading _ r hfile hdel := (hs.readersOk (f := fileOf r) (.inl hone)).not_reading_of_deleting hfile rfl hdel
  not_deleted t hpc := hs.not_deleted_of_accepted hone t (by rw [hpc]; rfl)

theorem Reachable.excluded_of_impatient (hpatience : P.patienceTime ≤ 1) (hs : Reachable P s) :
    Excluded s where
  not_reading d _ _ hdel := by
    have hnone := hs.operation_eq_none hpatience d
    rw [Pc.operation_of_deleting hdel] at hnone
    cases hnone
  not_deleted t hpc := by
    have hnone := hs.operation_eq_none hpatience t
    rw [hpc] at hnone
    cases hnone

theorem Reachable.excluded_of_apart (hapart : ∀ f, requestCount P f .read = 0 ∨ requestCount P f .delete = 0)
    (hs : Reachable P s) : Excluded s where
  not_reading d r hfile hdel := by
    by_contra hreading
    rw [Bool.not_eq_false] at hreading
    have hr := one_le_countAt Pc.accepted (s := s) (t := r) rfl (Pc.accepted_of_counted (Pc.counted_of_reading hreading))
    have hd := one_le_countAt Pc.deleting (s := s) hfile hdel
    have hreads := hs.countAt_le_requestCount (fileOf r) Pc.accepted fun _ hp => Pc.operation_of_accepted hp
    have hdeletes := hs.countAt_le_requestCount (fileOf r) Pc.deleting fun _ hp => Pc.operation_of_deleting hp
    have := hapart (fileOf r)
    omega
  not_deleted t hpc := by
    rcases hapart (fileOf t) with hreads | hdeletes
    · have hle := hs.countAt_le_requestCount (fileOf t) Pc.accepted fun _ hp => Pc.operation_of_accepted hp
      have hpos := one_le_countAt Pc.accepted (s := s) (t := t) rfl (by rw [hpc]; rfl)
      omega
    · exact hs.not_deleted_of_no_delete hdeletes

/-- The deleter takes `delete_lock`, the reader passes the test of `is_deleted` and waits for `delete_lock` inside `lock`, the deleter deletes the file and posts `delete_lock`, and the reader goes on. -/
theorem exists_taken_after_delete (htwo : 2 ≤ P.maxConcurrent) (hpatience : 1 < P.patienceTime)
    (hreads : 0 < requestCount P f .read) (hdeletes : 0 < requestCount P f .delete) :
    ∃ s, Reachable P s ∧ ∃ t, (s.threads t).pc = .readPrintTaken ∧ (s.files (fileOf t)).isDeleted = true := by
  obtain ⟨t, htf, htread⟩ := exists_of_requestCount_pos hreads
  obtain ⟨d, hdf, hddelete⟩ := exists_of_requestCount_pos hdeletes
  have hne : t ≠ d := by
    rintro rfl
    rw [htread] at hddelete
    cases hddelete
  obtain ⟨k, hk⟩ : ∃ k, P.maxConcurrent = k + 2 := ⟨P.maxConcurrent - 2, by omega⟩
  obtain ⟨s1, hs1, hran1⟩ := (reachable_initial P).run_thread d _ _ (threadRun_delete_try hpatience hddelete (show _ = 0 + 1 from rfl))
  have ht1 : (s1.threads t, s1.files (fileOf t)) = (fresh, { initFile P.maxConcurrent with deleteLock := 0 }) := by
    rw [hran1.thread_of_ne hne, htf, hran1.file_self hdf]
    rfl
  obtain ⟨s2, hs2, hran2⟩ := hs1.run_thread t 9
    (⟨.readWaitDelete, 1⟩, { isDeleted := false, readCount := 1, lock := k + 1, writeLock := 1, deleteLock := 0 }) (by
      rw [ht1]
      exact threadRun_add (threadRun_read_store hpatience htread (show _ = (k + 1) + 1 from hk) rfl) (n := 2) rfl)
  have hd2 : (s2.threads d, s2.files (fileOf d)) = (⟨.deleteWaitWrite, 1⟩,
      { isDeleted := false, readCount := 1, lock := k + 1, writeLock := 1, deleteLock := 0 }) := by
    rw [hran2.thread_of_ne hne.symm, hran1.thread_self, hdf, hran2.file_self htf]
  obtain ⟨s3, hs3, hran3⟩ := hs2.run_thread d _ _ (hd2 ▸ threadRun_delete_rest (show _ = 0 + 1 from rfl) rfl rfl)
  have ht3 : (s3.threads t, s3.files (fileOf t)) = (⟨.readWaitDelete, 1⟩,
      { isDeleted := true, readCount := 1, lock := k + 1, writeLock := 1, deleteLock := 1 }) := by
    rw [hran3.thread_of_ne hne, hran2.thread_self, htf, hran3.file_self hdf]
  obtain ⟨s4, hs4, hran4⟩ := hs3.run_thread t 2
    (⟨.readPrintTaken, 1⟩, { isDeleted := true, readCount := 1, lock := k + 2, writeLock := 1, deleteLock := 0 })
    (by rw [ht3]; rfl)
  refine ⟨s4, hs4, t, ?_, ?_⟩
  · rw [hran4.thread_self]
  · rw [hran4.file_self rfl]

/-- Readers and deleters exclude each other on every interleaving exactly when `lock` is a mutex or no file has both. -/
theorem excluded_iff (P : Params) (hk : 1 ≤ P.maxConcurrent) :
    (∀ s, Reachable P s → Excluded s) ↔
      (P.maxConcurrent = 1 ∨ P.patienceTime ≤ 1 ∨
        ∀ f, requestCount P f .read = 0 ∨ requestCount P f .delete = 0) := by
  constructor
  · intro h
    by_contra hcond
    push Not at hcond
    obtain ⟨hone, hpatience, f, hreads, hdeletes⟩ := hcond
    obtain ⟨s, hs, t, hpc, hdeleted⟩ := exists_taken_after_delete (f := f) (by omega) hpatience
      (Nat.pos_of_ne_zero hreads) (Nat.pos_of_ne_zero hdeletes)
    rw [(h s hs).not_deleted t hpc] at hdeleted
    cases hdeleted
  · rintro (hone | hpatience | hapart) s hs
    · exact hs.excluded_of_mutex hone
    · exact hs.excluded_of_impatient hpatience
    · exact hs.excluded_of_apart hapart

theorem excluded_sample_mutex :
    1 ≤ (sampleInput 1 .delete).maxConcurrent ∧ ∀ s : State (sampleInput 1 .delete), Reachable _ s → Excluded s :=
  ⟨by decide, (excluded_iff (sampleInput 1 .delete) (by decide)).mpr (.inl rfl)⟩

/-- With `max_concurrent = 2` a READ request is taken up after the DELETE has set `is_deleted`. -/
theorem exists_not_excluded : ∃ s : State (sampleInput 2 .delete), Reachable _ s ∧ ¬ Excluded s := by
  obtain ⟨s, hs, t, hpc, hdeleted⟩ :=
    exists_taken_after_delete (P := sampleInput 2 .delete) (f := (0 : Fin 1)) (by decide) (by decide) (by decide) (by decide)
  refine ⟨s, hs, fun h => ?_⟩
  rw [h.not_deleted t hpc] at hdeleted
  cases hdeleted

end AdvancedXv6.FileManager
