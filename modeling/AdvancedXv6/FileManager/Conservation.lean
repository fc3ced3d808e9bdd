import AdvancedXv6.FileManager.Readers
import AdvancedXv6.FileManager.Schedules

/-!
# Conservation of the semaphores and of the reader count

`lock` and `write_lock` are conserved on every input. `read_count` and `delete_lock` are conserved when the readers of a file update the count one at a time. Two readers inside `lock` at once can lose an increment, and then both take themselves for the first reader, or neither does.
-/

namespace AdvancedXv6.FileManager

variable {P : Params}

/-- Semaphores within their initial values, `read_count` the number of readers it counts, and everything back to where `init_files` put it when all the threads have returned. -/
structure Conserved (s : State P) : Prop where
  deleteLock_le : ∀ f, (s.files f).deleteLock ≤ 1
  writeLock_le : ∀ f, (s.files f).writeLock ≤ 1
  lock_le : ∀ f, (s.files f).lock ≤ P.maxConcurrent
  readCount_eq : ∀ f, (s.files f).readCount = countAt f Pc.counted s
  restored : (∀ t, (s.threads t).pc = .returned) → ∀ f, (s.files f).lock = P.maxConcurrent ∧
    (s.files f).writeLock = 1 ∧ (s.files f).deleteLock = 1 ∧ (s.files f).readCount = 0

theorem ReadersOk.deleteLock_le {f : Fin P.numFiles} {s : State P} (h : ReadersOk f s) (hexcl : ReadExclusive f s) :
    (s.files f).deleteLock ≤ 1 := by
  have htokens := h.tokens_eq
  have hentering : countAt f (Pc.entering (s.files f).readCount) s ≤ countAt f Pc.inReadSection s :=
    countAt_mono fun _ _ hp => Pc.inReadSection_of_entering hp
  have hcounted : countAt f (Pc.entering (s.files f).readCount) s ≤ countAt f Pc.counted s :=
    countAt_mono fun _ _ hp => Pc.counted_of_entering hp
  have hcount := h.readCount_eq
  unfold ReadExclusive at hexcl
  by_cases hpos : 1 ≤ (s.files f).readCount
  · simp only [hpos, decide_true, Bool.toNat_true] at htokens
    omega
  · omega

theorem Reachable.conserved_of_guarded (hguard : ∀ f, ReadsGuarded P f) {s : State P} (hs : Reachable P s) :
    Conserved s where
  deleteLock_le f := (hs.readersOk (hguard f)).deleteLock_le (hs.readExclusive (hguard f))
  writeLock_le f := by
    have := hs.writeLock_conserved f
    omega
  lock_le f := by
    have := hs.lock_conserved f
    omega
  readCount_eq f := (hs.readersOk (hguard f)).readCount_eq
  restored hreturned f := by
    have hzero : ∀ part : Pc → Bool, part .returned = false → countAt f part s = 0 := fun part hpart =>
      countAt_eq_zero fun t _ => by rw [hreturned t, hpart]
    have hok := hs.readersOk (hguard f)
    have hlock := hs.lock_conserved f
    have hwrite := hs.writeLock_conserved f
    have hcount := hok.readCount_eq
    have htokens := hok.tokens_eq
    rw [hzero _ rfl] at hlock hwrite hcount
    rw [hzero _ rfl, hzero _ rfl, hzero _ rfl, hcount] at htokens
    have hdelete : ((s.files f).deleteLock : ℤ) = 1 := by simpa using htokens
    exact ⟨hlock, hwrite, by exact_mod_cast hdelete, hcount⟩

/-- Two readers inside `lock` at once: both read 0 from `read_count` and both write 1 to it. -/
theorem exists_lost_increment {f : Fin P.numFiles} (htwo : 2 ≤ P.maxConcurrent) (hpatience : 1 < P.patienceTime)
    (hreads : 1 < requestCount P f .read) : ∃ s, Reachable P s ∧ (s.files f).readCount < countAt f Pc.counted s := by
  obtain ⟨t, u, hne, ⟨htf, htread⟩, ⟨huf, huread⟩⟩ := exists_ne_of_one_lt_requestCount hreads
  obtain ⟨k, hk⟩ : ∃ k, P.maxConcurrent = k + 2 := ⟨P.maxConcurrent - 2, by omega⟩
  obtain ⟨s1, hs1, hran1⟩ := (reachable_initial P).run_thread t _ _ (threadRun_read_store hpatience htread (show _ = (k + 1) + 1 from hk) rfl)
  have hfile1 := hran1.file_self htf
  have hu1 : (s1.threads u, s1.files (fileOf u)) = (fresh, { initFile P.maxConcurrent with lock := k + 1 }) := by
    rw [hran1.thread_of_ne hne.symm, huf, hfile1]
    rfl
  obtain ⟨s2, hs2, hran2⟩ := hs1.run_thread u _ _ (hu1 ▸ threadRun_read_store hpatience huread rfl rfl)
  have ht2 : (s2.threads t, s2.files (fileOf t)) =
      (⟨.readStoreCount 0, 1⟩, { initFile P.maxConcurrent with lock := k }) := by
    rw [hran2.thread_of_ne hne, hran1.thread_self, htf, hran2.file_self huf]
    rfl
  obtain ⟨s3, hs3, hran3⟩ := hs2.run_thread t 1
    (⟨.readTestFirst, 1⟩, { initFile P.maxConcurrent with lock := k, readCount := 1 }) (by rw [ht2]; rfl)
  have hu3 : (s3.threads u, s3.files (fileOf u)) =
      (⟨.readStoreCount 0, 1⟩, { initFile P.maxConcurrent with lock := k, readCount := 1 }) := by
    rw [hran3.thread_of_ne hne.symm, hran2.thread_self, huf, hran3.file_self htf]
    rfl
  obtain ⟨s4, hs4, hran4⟩ := hs3.run_thread u 1
    (⟨.readTestFirst, 1⟩, { initFile P.maxConcurrent with lock := k, readCount := 1 }) (by rw [hu3]; rfl)
  refine ⟨s4, hs4, ?_⟩
  have hcount := two_le_countAt Pc.counted (s := s4) hne htf huf
    (by rw [hran4.thread_of_ne hne, hran3.thread_self]; rfl) (by rw [hran4.thread_self]; rfl)
  rw [hran4.file_self huf]
  change (1 : ℤ) < countAt f Pc.counted s4
  omega

/-- The semaphores and the count are conserved on every interleaving exactly when no file has two readers inside `lock`. -/
theorem conserved_iff (P : Params) (hk : 1 ≤ P.maxConcurrent) :
    (∀ s, Reachable P s → Conserved s) ↔
      (P.maxConcurrent = 1 ∨ P.patienceTime ≤ 1 ∨ ∀ f, requestCount P f .read ≤ 1) := by
  constructor
  · intro h
    by_contra hcond
    push Not at hcond
    obtain ⟨hone, hpatience, f, hreads⟩ := hcond
    obtain ⟨s, hs, hlost⟩ := exists_lost_increment (f := f) (by omega) hpatience hreads
    have heq := (h s hs).readCount_eq f
    omega
  · intro hcond s hs
    refine hs.conserved_of_guarded fun f => ?_
    rcases hcond with hone | hpatience | hreads
    · exact .inl hone
    · exact .inr (.inl hpatience)
    · exact .inr (.inr (hreads f))

theorem conserved_sample_mutex :
    1 ≤ (sampleInput 1 .delete).maxConcurrent ∧ ∀ s : State (sampleInput 1 .delete), Reachable _ s → Conserved s :=
  ⟨by decide, (conserved_iff (sampleInput 1 .delete) (by decide)).mpr (.inl rfl)⟩

/-- With `max_concurrent = 2` both READ requests load the count 0, and both store 1. -/
theorem exists_not_conserved : ∃ s : State (sampleInput 2 .delete), Reachable _ s ∧ ¬ Conserved s := by
  obtain ⟨s, hs, hlost⟩ := exists_lost_increment (P := sampleInput 2 .delete) (f := (0 : Fin 1)) (by decide) (by decide) (by decide)
  refine ⟨s, hs, fun h => ?_⟩
  have heq := h.readCount_eq (0 : Fin 1)
  omega

end AdvancedXv6.FileManager
