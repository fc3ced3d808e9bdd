import AdvancedXv6.FileManager.Locks

/-!
# Schedules that move one thread at a time

To show that some interleaving breaks a property it is enough to let a few threads run in turn, each for a number of its own steps. What such a thread does depends only on its own file, so its run can be computed with the thread and the file alone, and placed in any state of the system.
-/

namespace AdvancedXv6.FileManager

open Function

variable {P : Params}

def threadRun (P : Params) (r : Request P.numFiles) : ℕ → Thread × File → Option (Thread × File)
  | 0, here => some here
  | n + 1, here => (threadStep P r here.1 here.2).bind fun e => threadRun P r n (e.thread, e.file)

structure Ran (s s' : State P) (t : Fin P.numRequests) (here : Thread × File) : Prop where
  threads_eq : s'.threads = update s.threads t here.1
  files_eq : s'.files = update s.files (fileOf t) here.2

variable {s s' : State P} {r : Request P.numFiles} {m n : ℕ} {here : Thread × File}
  {t : Fin P.numRequests} {f : Fin P.numFiles} {operation : Operation} {file : File}

theorem reachable_initial (P : Params) : Reachable P (initial P) := Transition.Reachable.of_init rfl

theorem Reachable.run_thread (hs : Reachable P s) (t : Fin P.numRequests) (n : ℕ) (here : Thread × File)
    (hrun : threadRun P (P.requests t) n (s.threads t, s.files (fileOf t)) = some here) :
    ∃ s', Reachable P s' ∧ Ran s s' t here := by
  induction n generalizing s with
  | zero =>
    cases hrun
    exact ⟨s, hs, by simp, by simp⟩
  | succ n ih =>
    simp only [threadRun, Option.bind_eq_some_iff] at hrun
    obtain ⟨e, he, hrest⟩ := hrun
    let mid : State P :=
      { files := update s.files (fileOf t) e.file
        threads := update s.threads t e.thread
        output := s.output ++ e.printed }
    have hmid : step s t = some mid := by simp only [step, he, Option.map_some, mid]
    obtain ⟨s', hs', hran⟩ := ih (s := mid) (hs.tail ⟨t, hmid⟩) (by simpa [mid] using hrest)
    refine ⟨s', hs', ?_, ?_⟩
    · rw [hran.threads_eq, update_idem]
    · rw [hran.files_eq, update_idem]

theorem threadRun_add {mid last : Thread × File}
    (hfirst : threadRun P r m here = some mid) (hsecond : threadRun P r n mid = some last) :
    threadRun P r (m + n) here = some last := by
  induction m generalizing here with
  | zero =>
    cases hfirst
    rw [Nat.zero_add]
    exact hsecond
  | succ m ih =>
    simp only [threadRun, Option.bind_eq_some_iff] at hfirst
    obtain ⟨e, he, hrest⟩ := hfirst
    rw [Nat.succ_add, threadRun, he]
    exact ih hrest

theorem Ran.thread_self (h : Ran s s' t here) :
    s'.threads t = here.1 := by
  rw [h.threads_eq, update_self]

theorem Ran.thread_of_ne {u : Fin P.numRequests} (h : Ran s s' t here)
    (hne : u ≠ t) : s'.threads u = s.threads u := by
  rw [h.threads_eq, update_of_ne hne]

theorem Ran.file_self (h : Ran s s' t here)
    (hf : fileOf t = f) : s'.files f = here.2 := by
  rw [h.files_eq, hf, update_self]

theorem exists_of_requestCount_pos (h : 0 < requestCount P f operation) :
    ∃ t, fileOf t = f ∧ (P.requests t).operation = operation := by
  obtain ⟨t, ht⟩ := Finset.card_pos.mp h
  exact ⟨t, (Finset.mem_filter.mp ht).2⟩

theorem exists_ne_of_one_lt_requestCount (h : 1 < requestCount P f operation) :
    ∃ t u, t ≠ u ∧ (fileOf t = f ∧ (P.requests t).operation = operation) ∧
      (fileOf u = f ∧ (P.requests u).operation = operation) := by
  obtain ⟨t, u, ht, hu, hne⟩ := Finset.one_lt_card_iff.mp h
  exact ⟨t, u, hne, (Finset.mem_filter.mp ht).2, (Finset.mem_filter.mp hu).2⟩

/-! ### The pieces -/

def fresh : Thread := { pc := .sleepArrival, waitTime := 1 }

theorem threadRun_branch (hpatience : 1 < P.patienceTime) (file : File) :
    threadRun P r 4 (fresh, file) = some (⟨branch r.operation, 1⟩, file) := by
  have htest : threadStep P r ⟨.whileTest, 1⟩ file = some { thread := ⟨branch r.operation, 1⟩, file } :=
    if_pos hpatience
  calc threadRun P r 4 (fresh, file)
      = (threadStep P r ⟨.whileTest, 1⟩ file).bind fun e => some (e.thread, e.file) := rfl
    _ = some (⟨branch r.operation, 1⟩, file) := by rw [htest]; rfl

theorem threadRun_read_store (hpatience : 1 < P.patienceTime)
    (hread : r.operation = .read) (hlock : file.lock = n + 1) (hlive : file.isDeleted = false) :
    threadRun P r 7 (fresh, file) = some (⟨.readStoreCount file.readCount, 1⟩, { file with lock := n }) := by
  refine threadRun_add (threadRun_branch hpatience file) (n := 3) ?_
  obtain ⟨isDeleted, readCount, lock, writeLock, deleteLock⟩ := file
  simp only at hlock hlive
  subst hlock hlive
  rw [hread]
  rfl

theorem threadRun_delete_try (hpatience : 1 < P.patienceTime)
    (hdelete : r.operation = .delete) (hfree : file.deleteLock = n + 1) :
    threadRun P r 5 (fresh, file) = some (⟨.deleteWaitWrite, 1⟩, { file with deleteLock := n }) := by
  refine threadRun_add (threadRun_branch hpatience file) (n := 1) ?_
  obtain ⟨isDeleted, readCount, lock, writeLock, deleteLock⟩ := file
  simp only at hfree
  subst hfree
  rw [hdelete]
  rfl

theorem threadRun_delete_rest (hwrite : file.writeLock = n + 1)
    (hlock : file.lock = m + 1) (hlive : file.isDeleted = false) :
    threadRun P r 10 (⟨.deleteWaitWrite, 1⟩, file) =
      some (⟨.afterLoop, 1⟩, { file with isDeleted := true, deleteLock := file.deleteLock + 1 }) := by
  obtain ⟨isDeleted, readCount, lock, writeLock, deleteLock⟩ := file
  simp only at hwrite hlock hlive
  subst hwrite hlock hlive
  rfl

end AdvancedXv6.FileManager
