import AdvancedXv6.FileManager.Exclusion

/-!
# The limit on concurrent accesses

The initial value of `lock` is `max_concurrent`, but no thread holds `lock` during its access: a READ posts it before it is taken up, and so do WRITE and DELETE. What bounds the accesses to a file is `write_lock`, one WRITE or DELETE at a time, and the number of READ requests that there are.
-/

namespace AdvancedXv6.FileManager

open Weights

variable {P : Params}

def Pc.inReadAccess : Pc → Bool
  | .readSleep | .readPrintCompleted => true
  | _ => false

def Pc.inStoreAccess : Pc → Bool
  | .writeSleep | .writePrintCompleted | .deleteSleep | .deletePrintCompleted => true
  | _ => false

def Pc.inAccess : Pc → Bool
  | .writeSleep | .writePrintCompleted | .deleteSleep | .deletePrintCompleted => true
  | pc => pc.inReadAccess

def WithinLimit (s : State P) : Prop := ∀ f, countAt f Pc.inAccess s ≤ P.maxConcurrent

def overlapBound (P : Params) (f : Fin P.numFiles) : ℕ :=
  requestCount P f .read +
    if 0 < requestCount P f .write ∨ (0 < requestCount P f .delete ∧ 2 ≤ P.maxConcurrent) then 1 else 0

theorem countAt_inAccess (f : Fin P.numFiles) (s : State P) :
    countAt f Pc.inAccess s = countAt f Pc.inReadAccess s + countAt f Pc.inStoreAccess s := by
  unfold countAt
  rw [← total_add]
  congr 1
  funext t th
  by_cases hf : fileOf t = f
  · simp only [hf, if_true]
    cases th.pc <;> rfl
  · simp only [if_neg hf]

variable {pc : Pc} {f : Fin P.numFiles} {s : State P} {r : Request P.numFiles} {readers : Finset (Fin P.numRequests)} {n w d k : ℕ} {t : Fin P.numRequests}

theorem Pc.holdsWrite_of_inStoreAccess (h : pc.inStoreAccess = true) : pc.holdsWrite = true := by
  cases pc <;> first | rfl | cases h

theorem Pc.operation_of_inReadAccess (h : pc.inReadAccess = true) : pc.operation = some .read := by
  cases pc <;> first | rfl | cases h

theorem Pc.reading_of_inReadAccess (h : pc.inReadAccess = true) : pc.reading = true := by
  cases pc <;> first | rfl | cases h

/-- An access that is not a read is a WRITE's, or a DELETE's that has set `is_deleted`. -/
theorem Pc.operation_of_inStoreAccess (h : pc.inStoreAccess = true) :
    pc.operation = some .write ∨ (pc.operation = some .delete ∧ pc.deleting = true) := by
  cases pc <;> first | exact .inl rfl | exact .inr ⟨rfl, rfl⟩ | cases h

theorem Pc.operation_of_inAccess (h : pc.inAccess = true) : pc.operation.isSome = true := by
  cases pc <;> first | rfl | cases h

theorem Reachable.request_of_store (hs : Reachable P s)
    (hpos : 0 < countAt f Pc.inStoreAccess s) :
    0 < requestCount P f .write ∨
      (0 < requestCount P f .delete ∧ ∃ d, fileOf d = f ∧ (s.threads d).pc.deleting = true) := by
  obtain ⟨t, hf, hpc⟩ := exists_of_countAt_pos hpos
  have hmem : ∀ operation, (P.requests t).operation = operation → 0 < requestCount P f operation := fun operation hop =>
    Finset.card_pos.mpr ⟨t, Finset.mem_filter.mpr ⟨Finset.mem_univ t, hf, hop⟩⟩
  rcases Pc.operation_of_inStoreAccess hpc with hwrite | ⟨hdelete, hdeleting⟩
  · exact .inl (hmem .write ((hs.patient t).operation_eq _ hwrite))
  · exact .inr ⟨hmem .delete ((hs.patient t).operation_eq _ hdelete), t, hf, hdeleting⟩

theorem Reachable.countAt_inAccess_le (hk : 1 ≤ P.maxConcurrent)
    (hbound : overlapBound P f ≤ P.maxConcurrent) (hs : Reachable P s) :
    countAt f Pc.inAccess s ≤ P.maxConcurrent := by
  have hreads := hs.countAt_le_requestCount f Pc.inReadAccess fun _ hp => Pc.operation_of_inReadAccess hp
  have hstores : countAt f Pc.inStoreAccess s ≤ countAt f Pc.holdsWrite s :=
    countAt_mono fun _ _ hp => Pc.holdsWrite_of_inStoreAccess hp
  have hwrite := hs.writeLock_conserved f
  rw [countAt_inAccess]
  unfold overlapBound at hbound
  split_ifs at hbound with hshared
  · omega
  · rcases Nat.eq_zero_or_pos (countAt f Pc.inStoreAccess s) with hzero | hpos
    · omega
    · rcases hs.request_of_store hpos with hw | ⟨hd, d, hdf, hdeleting⟩
      · exact absurd (.inl hw) hshared
      · have hone : P.maxConcurrent = 1 := by
          by_contra hne
          exact hshared (.inr ⟨hd, by omega⟩)
        have hnone : countAt f Pc.inReadAccess s = 0 := countAt_eq_zero fun r hrf => by
          by_contra hread
          rw [Bool.not_eq_false] at hread
          have hnot := (hs.excluded_of_mutex hone).not_reading d r (hdf.trans hrf.symm) hdeleting
          rw [Pc.reading_of_inReadAccess hread] at hnot
          cases hnot
        omega

theorem Reachable.withinLimit_of_impatient (hpatience : P.patienceTime ≤ 1) (hs : Reachable P s) :
    WithinLimit s := by
  intro f
  have hzero : countAt f Pc.inAccess s = 0 := countAt_eq_zero fun t _ => by
    by_contra hp
    rw [Bool.not_eq_false] at hp
    have hsome := Pc.operation_of_inAccess hp
    rw [hs.operation_eq_none hpatience t] at hsome
    cases hsome
  omega

/-! ### Schedules with as many accesses as there are requests -/

theorem card_le_countAt {part : Pc → Bool} (threads : Finset (Fin P.numRequests))
    (hpart : ∀ t ∈ threads, fileOf t = f ∧ part (s.threads t).pc = true) : threads.card ≤ countAt f part s := by
  calc threads.card = ∑ _t ∈ threads, 1 := Finset.card_eq_sum_ones threads
    _ ≤ ∑ t ∈ threads, (if fileOf t = f then (part (s.threads t).pc).toNat else 0) := by
        apply Finset.sum_le_sum
        intro t ht
        rw [if_pos (hpart t ht).1, (hpart t ht).2]
        exact le_refl 1
    _ ≤ countAt f part s := Finset.sum_le_sum_of_subset (Finset.subset_univ threads)

section

variable (hpatience : 1 < P.patienceTime)
include hpatience

theorem threadRun_read_access (hread : r.operation = .read)
    {count : ℤ} (hcount : 1 ≤ count) (n w d : ℕ) :
    threadRun P r 11 (fresh, ⟨false, count, n + 1, w, d⟩) = some (⟨.readSleep, 1⟩, ⟨false, count + 1, n + 1, w, d⟩) := by
  have htest : threadStep P r ⟨.readTestFirst, 1⟩ ⟨false, count + 1, n, w, d⟩ =
      some { thread := ⟨.readPostLock, 1⟩, file := ⟨false, count + 1, n, w, d⟩ } := if_neg (by simp only; omega)
  refine threadRun_add (threadRun_read_store hpatience hread rfl rfl) (n := 4) ?_
  calc threadRun P r 4 (⟨.readStoreCount count, 1⟩, ⟨false, count, n, w, d⟩)
      = (threadStep P r ⟨.readTestFirst, 1⟩ ⟨false, count + 1, n, w, d⟩).bind
          fun e => threadRun P r 2 (e.thread, e.file) := rfl
    _ = some (⟨.readSleep, 1⟩, ⟨false, count + 1, n + 1, w, d⟩) := by rw [htest]; rfl

structure Accessing (f : Fin P.numFiles) (readers : Finset (Fin P.numRequests)) (n w d : ℕ) (s : State P) : Prop where
  reachable : Reachable P s
  threads_eq : ∀ t ∈ readers, fileOf t = f ∧ s.threads t = ⟨.readSleep, 1⟩
  rest_eq : ∀ t, t ∉ readers → s.threads t = fresh
  file_eq : ∃ count : ℤ, 1 ≤ count ∧ s.files f = ⟨false, count, n + 1, w, d⟩

theorem Accessing.insert (h : Accessing f readers n w d s) (hnot : t ∉ readers)
    (htf : fileOf t = f) (hread : (P.requests t).operation = .read) :
    ∃ s', Accessing f (insert t readers) n w d s' := by
  obtain ⟨count, hcount, hfile⟩ := h.file_eq
  obtain ⟨s', hs', hran⟩ := h.reachable.run_thread t 11 (⟨.readSleep, 1⟩, ⟨false, count + 1, n + 1, w, d⟩) (by
    rw [h.rest_eq t hnot, htf, hfile]
    exact threadRun_read_access hpatience hread hcount n w d)
  refine ⟨s', hs', fun u hu => ?_, fun u hu => ?_, count + 1, by omega, hran.file_self htf⟩
  · rcases Finset.mem_insert.mp hu with rfl | hmem
    · exact ⟨htf, hran.thread_self⟩
    · rw [hran.thread_of_ne (ne_of_mem_of_not_mem hmem hnot)]
      exact h.threads_eq u hmem
  · rw [Finset.mem_insert, not_or] at hu
    rw [hran.thread_of_ne hu.1]
    exact h.rest_eq u hu.2

theorem Accessing.exists_all (readers more : Finset (Fin P.numRequests))
    (hread : ∀ t ∈ more, fileOf t = f ∧ (P.requests t).operation = .read) (hstart : ∃ s, Accessing f readers n w d s) :
    ∃ s, Accessing f (more ∪ readers) n w d s := by
  induction more using Finset.induction_on with
  | empty => rwa [Finset.empty_union]
  | insert t more hnot ih =>
    obtain ⟨s, hs⟩ := ih fun u hu => hread u (Finset.mem_insert_of_mem hu)
    rw [Finset.insert_union]
    by_cases hmem : t ∈ more ∪ readers
    · rw [Finset.insert_eq_of_mem hmem]
      exact ⟨s, hs⟩
    · obtain ⟨htf, htread⟩ := hread t (Finset.mem_insert_self t more)
      exact hs.insert hpatience hmem htf htread

def readersOf (P : Params) (f : Fin P.numFiles) : Finset (Fin P.numRequests) :=
  Finset.univ.filter fun t => (P.requests t).fileId = f ∧ (P.requests t).operation = .read

omit hpatience in
theorem mem_readersOf :
    t ∈ readersOf P f ↔ fileOf t = f ∧ (P.requests t).operation = .read := by
  rw [readersOf, Finset.mem_filter, and_iff_right (Finset.mem_univ t)]
  rfl

theorem Accessing.exists_readersOf (hsub : readers ⊆ readersOf P f) (hstart : ∃ s, Accessing f readers n w d s) :
    ∃ s, Accessing f (readersOf P f) n w d s := by
  have hall := Accessing.exists_all hpatience readers (readersOf P f) (fun _ ht => mem_readersOf.mp ht) hstart
  rwa [Finset.union_eq_left.mpr hsub] at hall

theorem Accessing.exists_first (hk : P.maxConcurrent = k + 1)
    (ht : t ∈ readersOf P f) : ∃ s, Accessing f {t} k 1 0 s := by
  obtain ⟨htf, hread⟩ := mem_readersOf.mp ht
  obtain ⟨s, hs, hran⟩ := (reachable_initial P).run_thread t 12 (⟨.readSleep, 1⟩, ⟨false, 1, k + 1, 1, 0⟩)
    (threadRun_add (threadRun_read_store hpatience hread (show _ = k + 1 from hk) rfl) (n := 5) rfl)
  refine ⟨s, hs, fun u hu => ?_, fun u hu => ?_, 1, le_refl 1, hran.file_self htf⟩
  · rw [Finset.mem_singleton.mp hu]
    exact ⟨htf, hran.thread_self⟩
  · rw [hran.thread_of_ne (Finset.notMem_singleton.mp hu)]
    rfl

/-- Two readers that both count themselves before either tests the count leave `delete_lock` free. -/
theorem Accessing.exists_race (hk : P.maxConcurrent = k + 2)
    {u : Fin P.numRequests} (hne : t ≠ u) (ht : t ∈ readersOf P f) (hu : u ∈ readersOf P f) :
    ∃ s, Accessing f {t, u} (k + 1) 1 1 s := by
  obtain ⟨htf, htread⟩ := mem_readersOf.mp ht
  obtain ⟨huf, huread⟩ := mem_readersOf.mp hu
  obtain ⟨s1, hs1, hran1⟩ := (reachable_initial P).run_thread t 8 (⟨.readTestFirst, 1⟩, ⟨false, 1, k + 1, 1, 1⟩)
    (threadRun_add (threadRun_read_store hpatience htread (show _ = (k + 1) + 1 from hk) rfl) (n := 1) rfl)
  obtain ⟨s2, hs2, hran2⟩ := hs1.run_thread u 11 (⟨.readSleep, 1⟩, ⟨false, 2, k + 1, 1, 1⟩) (by
    rw [hran1.thread_of_ne hne.symm, huf, hran1.file_self htf]
    exact threadRun_read_access hpatience huread (le_refl 1) k 1 1)
  obtain ⟨s3, hs3, hran3⟩ := hs2.run_thread t 3 (⟨.readSleep, 1⟩, ⟨false, 2, k + 2, 1, 1⟩) (by
    rw [hran2.thread_of_ne hne, hran1.thread_self, htf, hran2.file_self huf]
    rfl)
  refine ⟨s3, hs3, fun v hv => ?_, fun v hv => ?_, 2, by omega, hran3.file_self htf⟩
  · rcases Finset.mem_insert.mp hv with rfl | hvu
    · exact ⟨htf, hran3.thread_self⟩
    · rw [Finset.mem_singleton.mp hvu, hran3.thread_of_ne hne.symm]
      exact ⟨huf, hran2.thread_self⟩
  · rw [Finset.mem_insert, Finset.mem_singleton, not_or] at hv
    rw [hran3.thread_of_ne hv.1, hran2.thread_of_ne hv.2, hran1.thread_of_ne hv.1]
    rfl

omit hpatience in
theorem Accessing.card_le (h : Accessing f readers n w d s) : readers.card ≤ countAt f Pc.inAccess s :=
  card_le_countAt readers fun t ht => ⟨(h.threads_eq t ht).1, by rw [(h.threads_eq t ht).2]; rfl⟩

omit hpatience in
theorem Accessing.exists_more (h : Accessing f readers n w d s) (hnot : t ∉ readers) (htf : fileOf t = f) (steps : ℕ)
    (last : Thread × File) (haccess : last.1.pc.inAccess = true)
    (hrun : ∀ count, threadRun P (P.requests t) steps (fresh, ⟨false, count, n + 1, w, d⟩) =
      some (last.1, { last.2 with readCount := count })) :
    ∃ s', Reachable P s' ∧ readers.card + 1 ≤ countAt f Pc.inAccess s' := by
  obtain ⟨count, _, hfile⟩ := h.file_eq
  obtain ⟨s', hs', hran⟩ := h.reachable.run_thread t steps (last.1, { last.2 with readCount := count }) (by
    rw [h.rest_eq t hnot, htf, hfile]
    exact hrun count)
  refine ⟨s', hs', ?_⟩
  rw [← Finset.card_insert_of_notMem hnot]
  apply card_le_countAt
  intro u hu
  rcases Finset.mem_insert.mp hu with rfl | hmem
  · exact ⟨htf, by rw [hran.thread_self]; exact haccess⟩
  · rw [hran.thread_of_ne (ne_of_mem_of_not_mem hmem hnot), (h.threads_eq u hmem).2]
    exact ⟨(h.threads_eq u hmem).1, rfl⟩

theorem threadRun_write_access (hwrite : r.operation = .write) (count : ℤ) (n d : ℕ) :
    threadRun P r 9 (fresh, ⟨false, count, n + 1, 1, d⟩) = some (⟨.writeSleep, 1⟩, ⟨false, count, n + 1, 0, d⟩) := by
  refine threadRun_add (threadRun_branch hpatience _) (n := 5) ?_
  rw [hwrite]
  rfl

theorem threadRun_delete_access (hdelete : r.operation = .delete) (count : ℤ) (n : ℕ) :
    threadRun P r 11 (fresh, ⟨false, count, n + 1, 1, 1⟩) = some (⟨.deleteSleep, 1⟩, ⟨true, count, n + 1, 0, 0⟩) := by
  refine threadRun_add (threadRun_delete_try hpatience hdelete rfl) (n := 6) ?_
  rfl

end

theorem notMem_readersOf (hother : (P.requests t).operation ≠ .read) :
    t ∉ readersOf P f := fun ht => hother (mem_readersOf.mp ht).2

/-- All the readers of a file access it at once, the first of them with `delete_lock`. -/
theorem exists_reads_access (hk : 1 ≤ P.maxConcurrent) (hpatience : 1 < P.patienceTime)
    (hreads : 0 < requestCount P f .read) : ∃ n s, Accessing f (readersOf P f) n 1 0 s := by
  obtain ⟨n, hn⟩ := Nat.exists_eq_add_of_le' hk
  obtain ⟨t, ht⟩ := exists_of_requestCount_pos hreads
  have hmem := mem_readersOf.mpr ht
  exact ⟨n, Accessing.exists_readersOf hpatience (Finset.singleton_subset_iff.mpr hmem)
    (Accessing.exists_first hpatience hn hmem)⟩

/-- All the readers of a file access it at once, and `delete_lock` is still free. -/
theorem exists_reads_race (htwo : 2 ≤ P.maxConcurrent) (hpatience : 1 < P.patienceTime)
    (hreads : 1 < requestCount P f .read) : ∃ n s, Accessing f (readersOf P f) n 1 1 s := by
  obtain ⟨n, hn⟩ := Nat.exists_eq_add_of_le' htwo
  obtain ⟨t, u, hne, ht, hu⟩ := exists_ne_of_one_lt_requestCount hreads
  have htmem := mem_readersOf.mpr ht
  have humem := mem_readersOf.mpr hu
  exact ⟨n + 1, Accessing.exists_readersOf hpatience
    (Finset.insert_subset htmem (Finset.singleton_subset_iff.mpr humem))
    (Accessing.exists_race hpatience hn hne htmem humem)⟩

theorem exists_overlap (hk : 1 ≤ P.maxConcurrent) (hpatience : 1 < P.patienceTime)
    (hover : P.maxConcurrent < overlapBound P f) :
    ∃ s, Reachable P s ∧ P.maxConcurrent < countAt f Pc.inAccess s := by
  have hcard : (readersOf P f).card = requestCount P f .read := rfl
  unfold overlapBound at hover
  by_cases hreads : P.maxConcurrent < requestCount P f .read
  · obtain ⟨n, s, hs⟩ := exists_reads_access hk hpatience (f := f) (by omega)
    exact ⟨s, hs.reachable, by have := hs.card_le; omega⟩
  · split_ifs at hover with hshared
    · rcases hshared with hwrites | ⟨hdeletes, htwo⟩
      · obtain ⟨n, s, hs⟩ := exists_reads_access hk hpatience (f := f) (by omega)
        obtain ⟨t, htf, hwrite⟩ := exists_of_requestCount_pos hwrites
        obtain ⟨s', hs', hle⟩ := hs.exists_more (notMem_readersOf (by rw [hwrite]; decide)) htf 9
          (⟨.writeSleep, 1⟩, ⟨false, 0, n + 1, 0, 0⟩) rfl fun count => threadRun_write_access hpatience hwrite count n 0
        exact ⟨s', hs', by omega⟩
      · obtain ⟨n, s, hs⟩ := exists_reads_race htwo hpatience (f := f) (by omega)
        obtain ⟨t, htf, hdelete⟩ := exists_of_requestCount_pos hdeletes
        obtain ⟨s', hs', hle⟩ := hs.exists_more (notMem_readersOf (by rw [hdelete]; decide)) htf 11
          (⟨.deleteSleep, 1⟩, ⟨true, 0, n + 1, 0, 0⟩) rfl fun count => threadRun_delete_access hpatience hdelete count n
        exact ⟨s', hs', by omega⟩
    · omega

/-- The limit is kept on every interleaving exactly when no file has requests for more accesses that can overlap. -/
theorem withinLimit_iff (P : Params) (hk : 1 ≤ P.maxConcurrent) :
    (∀ s, Reachable P s → WithinLimit s) ↔ (P.patienceTime ≤ 1 ∨ ∀ f, overlapBound P f ≤ P.maxConcurrent) := by
  constructor
  · intro h
    by_contra hcond
    push Not at hcond
    obtain ⟨hpatience, f, hover⟩ := hcond
    obtain ⟨s, hs, hmore⟩ := exists_overlap hk hpatience hover
    exact absurd (h s hs f) (Nat.not_le.mpr hmore)
  · rintro (hpatience | hbound) s hs
    · exact hs.withinLimit_of_impatient hpatience
    · exact fun f => hs.countAt_inAccess_le hk (hbound f)

theorem withinLimit_sample :
    1 ≤ (sampleInput 3 .write).maxConcurrent ∧ ∀ s : State (sampleInput 3 .write), Reachable _ s → WithinLimit s :=
  ⟨by decide, (withinLimit_iff (sampleInput 3 .write) (by decide)).mpr (.inr (by decide))⟩

/-- With `max_concurrent = 1` both READ requests are in their access phase together. -/
theorem exists_not_withinLimit : ∃ s : State (sampleInput 1 .delete), Reachable _ s ∧ ¬ WithinLimit s := by
  obtain ⟨s, hs, hmore⟩ := exists_overlap (P := sampleInput 1 .delete) (f := (0 : Fin 1)) (by decide) (by decide) (by decide)
  exact ⟨s, hs, fun h => absurd (h (0 : Fin 1)) (Nat.not_le.mpr hmore)⟩

end AdvancedXv6.FileManager
