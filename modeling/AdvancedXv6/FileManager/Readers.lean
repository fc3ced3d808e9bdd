import AdvancedXv6.FileManager.Locks

/-!
# The reader count and `delete_lock`

`read_count` is updated by a read and a write, and the tests for the first and the last reader come after the update. All this is under the semaphore `lock`, which lets `max_concurrent` threads in, so it works only on a file where at most one reader at a time is between taking `lock` and posting it. This is the case with `max_concurrent = 1`, and on a file with a single READ request.

On such a file `read_count` is the number of readers between their increment and their decrement, and `delete_lock` has one owner: the semaphore itself, a deleter, or the readers together. The readers own it while there are any, less the first one that still has to take it, plus the last one that still has to post it.
-/

namespace AdvancedXv6.FileManager

open Function Weights

variable {P : Params}

def Pc.counted : Pc → Bool
  | .readTestFirst | .readWaitDelete | .readPostLock | .readPrintTaken | .readSleep
  | .readPrintCompleted | .readWaitLockAgain | .readLoadCountAgain | .readStoreCountAgain _ => true
  | _ => false

def Pc.holdsDelete : Pc → Bool
  | .deleteWaitWrite | .deleteWaitLock | .deleteTestDeleted | .deletePrintDeclined
  | .deletePostLockDeclined | .deletePostWriteDeclined | .deletePostDeleteDeclined
  | .deleteSetDeleted | .deletePostLock | .deletePrintTaken | .deleteSleep | .deletePrintCompleted
  | .deletePostWrite | .deletePostDelete => true
  | _ => false

def Pc.entering (readCount : ℤ) : Pc → Bool
  | .readTestFirst => readCount = 1
  | .readWaitDelete => true
  | _ => false

def Pc.leaving (readCount : ℤ) : Pc → Bool
  | .readTestLast => readCount = 0
  | .readPostDelete => true
  | _ => false

def ReadExclusive (f : Fin P.numFiles) (s : State P) : Prop := countAt f Pc.inReadSection s ≤ 1

def Pc.Stored (readCount : ℤ) (pc : Pc) : Prop :=
  ∀ count, pc = .readStoreCount count ∨ pc = .readStoreCountAgain count → count = readCount

/-- The share of one thread, with its file, in the owners of `delete_lock`. -/
def tokens (file : File) (pc : Pc) : ℤ :=
  file.deleteLock + pc.holdsDelete.toNat + (pc.leaving file.readCount).toNat +
    (decide (1 ≤ file.readCount)).toNat - (pc.entering file.readCount).toNat

/-! ### One step of a thread -/

variable {r : Request P.numFiles} {th : Thread} {file : File} {e : Effect} {count : ℤ} {pc : Pc} {f : Fin P.numFiles} {s : State P} {t : Fin P.numRequests}

section

variable (h : threadStep P r th file = some e) (hstored : th.pc.Stored file.readCount)
include h hstored

theorem threadStep_readCount :
    e.file.readCount + th.pc.counted.toNat = file.readCount + e.thread.pc.counted.toNat ∧
      e.thread.pc.Stored e.file.readCount ∧ (e.thread.pc = .readWaitDelete → e.file.readCount = 1) ∧
      (e.file.readCount = file.readCount ∨
        (th.pc.inReadSection = true ∧ ∀ count, th.pc.leaving count = false ∧ th.pc.entering count = false)) := by
  obtain ⟨pc, waitTime⟩ := th
  cases pc <;> simp only [threadStep, Option.bind_eq_some_iff, Option.some.injEq, reduceCtorEq] at h
  case whileTest =>
    split at h <;> cases h
    · cases r.operation <;> simp [branch, Pc.counted, Pc.Stored]
    · simp [Pc.counted, Pc.Stored]
  case readStoreCount count =>
    cases h
    have hcount : count = file.readCount := hstored count (.inl rfl)
    subst hcount
    simp [Pc.counted, Pc.Stored, Pc.inReadSection, Pc.leaving, Pc.entering]
  case readStoreCountAgain count =>
    cases h
    have hcount : count = file.readCount := hstored count (.inr rfl)
    subst hcount
    simp [Pc.counted, Pc.Stored, Pc.inReadSection, Pc.leaving, Pc.entering]
  case readWaitLock | readWaitDelete | readWaitLockAgain | writeWaitWrite | writeWaitLock | deleteWaitWrite | deleteWaitLock =>
    obtain ⟨_, _, rfl⟩ := h
    simp [Pc.counted, Pc.Stored]
  case readTestDeleted | readTestFirst | readTestLast | writeTestDeleted | deleteTestDeleted | afterLoop | deleteTryDelete =>
    split at h <;> cases h <;> simp_all [Pc.counted, Pc.Stored]
  all_goals
    cases h
    simp [Pc.counted, Pc.Stored]

theorem threadStep_tokens (hnonneg : 0 ≤ file.readCount)
    (hcounted : th.pc.counted = true → 1 ≤ file.readCount) :
    tokens e.file e.thread.pc = tokens file th.pc := by
  obtain ⟨pc, waitTime⟩ := th
  cases pc <;> simp only [threadStep, Option.bind_eq_some_iff, Option.some.injEq, reduceCtorEq] at h
  case whileTest =>
    split at h <;> cases h
    · cases r.operation <;> rfl
    · rfl
  case readStoreCount count =>
    cases h
    have hcount : count = file.readCount := hstored count (.inl rfl)
    subst hcount
    by_cases hzero : file.readCount = 0
    · simp [tokens, hzero, Pc.holdsDelete, Pc.leaving, Pc.entering]
    · have hpos : 1 ≤ file.readCount := by omega
      have hpos' : 1 ≤ file.readCount + 1 := by omega
      simp [tokens, hzero, hpos, hpos', Pc.holdsDelete, Pc.leaving, Pc.entering]
  case readStoreCountAgain count =>
    cases h
    have hcount : count = file.readCount := hstored count (.inr rfl)
    subst hcount
    have hpos : 1 ≤ file.readCount := hcounted rfl
    by_cases hlast : file.readCount - 1 = 0
    · simp [tokens, hlast, hpos, Pc.holdsDelete, Pc.leaving, Pc.entering]
    · have hpos' : 1 ≤ file.readCount - 1 := by omega
      simp [tokens, hlast, hpos, hpos', Pc.holdsDelete, Pc.leaving, Pc.entering]
  case deleteTryDelete =>
    split at h <;> cases h
    · rename_i hwait
      simp [tokens, Pc.holdsDelete, Pc.leaving, Pc.entering, semWait_eq_some hwait]
    · rfl
  case readWaitDelete =>
    obtain ⟨_, hwait, rfl⟩ := h
    simp only [tokens, Pc.holdsDelete, Pc.leaving, Pc.entering, semWait_eq_some hwait, Bool.toNat_true, Bool.toNat_false]
    omega
  case readWaitLock | readWaitLockAgain | writeWaitWrite | writeWaitLock | deleteWaitWrite | deleteWaitLock =>
    obtain ⟨_, _, rfl⟩ := h
    simp [tokens, Pc.holdsDelete, Pc.leaving, Pc.entering]
  case readTestDeleted | readTestFirst | readTestLast | writeTestDeleted | deleteTestDeleted | afterLoop =>
    split at h <;> cases h <;> simp_all [tokens, Pc.holdsDelete, Pc.leaving, Pc.entering]
  all_goals
    cases h
    simp [tokens, Pc.holdsDelete, Pc.leaving, Pc.entering, semPost]

end

/-! ### The readers of one file -/

structure ReadersOk (f : Fin P.numFiles) (s : State P) : Prop where
  readCount_eq : (s.files f).readCount = countAt f Pc.counted s
  stored : ∀ t, fileOf t = f → (s.threads t).pc.Stored (s.files f).readCount
  first : ∀ t, fileOf t = f → (s.threads t).pc = .readWaitDelete → (s.files f).readCount = 1
  tokens_eq : ((s.files f).deleteLock : ℤ) + countAt f Pc.holdsDelete s +
    countAt f (Pc.leaving (s.files f).readCount) s + (decide (1 ≤ (s.files f).readCount)).toNat =
      1 + countAt f (Pc.entering (s.files f).readCount) s

theorem readersOk_initial (f : Fin P.numFiles) : ReadersOk f (initial P) where
  readCount_eq := by
    rw [countAt_eq_zero fun _ _ => rfl]
    rfl
  stored := by
    rintro t - count (h | h) <;> cases h
  first := by
    intro t _ h
    cases h
  tokens_eq := by
    rw [countAt_eq_zero fun _ _ => rfl, countAt_eq_zero fun _ _ => rfl, countAt_eq_zero fun _ _ => rfl]
    rfl

theorem Pc.inReadSection_of_leaving (h : pc.leaving count = true) : pc.inReadSection = true := by
  cases pc <;> first | rfl | cases h

theorem Pc.inReadSection_of_entering (h : pc.entering count = true) : pc.inReadSection = true := by
  cases pc <;> first | rfl | cases h

theorem Pc.counted_of_entering (h : pc.entering count = true) : pc.counted = true := by
  cases pc <;> first | rfl | cases h

theorem ReadExclusive.eq (hexcl : ReadExclusive f s) {u : Fin P.numRequests}
    (ht : fileOf t = f) (hu : fileOf u = f) (hpt : (s.threads t).pc.inReadSection = true)
    (hpu : (s.threads u).pc.inReadSection = true) : t = u := by
  by_contra hne
  have htwo := two_le_countAt Pc.inReadSection hne ht hu hpt hpu
  unfold ReadExclusive at hexcl
  omega

theorem ReadExclusive.countAt_eq_zero (hexcl : ReadExclusive f s)
    (ht : fileOf t = f) (hpt : (s.threads t).pc.inReadSection = true) {part : Pc → Bool}
    (hpart : ∀ pc, part pc = true → pc.inReadSection = true) (hnot : part (s.threads t).pc = false) :
    countAt f part s = 0 := by
  refine FileManager.countAt_eq_zero fun u hu => ?_
  by_contra hp
  rw [Bool.not_eq_false] at hp
  have heq := hexcl.eq ht hu hpt (hpart _ hp)
  subst heq
  rw [hnot] at hp
  cases hp

theorem Pc.stored_of_not_inReadSection (hnot : ¬ pc.inReadSection = true) : pc.Stored count := by
  rintro loaded (rfl | rfl) <;> exact absurd rfl hnot

theorem ReadExclusive.rest_eq (hexcl : ReadExclusive f s)
    (ht : fileOf t = f) {count' : ℤ}
    (hkeep : count' = count ∨ ((s.threads t).pc.inReadSection = true ∧
      ∀ c, (s.threads t).pc.leaving c = false ∧ (s.threads t).pc.entering c = false)) :
    countAt f (Pc.leaving count') s + ((s.threads t).pc.leaving count).toNat =
        countAt f (Pc.leaving count) s + ((s.threads t).pc.leaving count').toNat ∧
      countAt f (Pc.entering count') s + ((s.threads t).pc.entering count).toNat =
        countAt f (Pc.entering count) s + ((s.threads t).pc.entering count').toNat := by
  rcases hkeep with rfl | ⟨hsection, hnot⟩
  · exact ⟨rfl, rfl⟩
  · have hleaving : ∀ c, countAt f (Pc.leaving c) s = 0 := fun c =>
      hexcl.countAt_eq_zero ht hsection (fun _ hp => Pc.inReadSection_of_leaving hp) (hnot c).1
    have hentering : ∀ c, countAt f (Pc.entering c) s = 0 := fun c =>
      hexcl.countAt_eq_zero ht hsection (fun _ hp => Pc.inReadSection_of_entering hp) (hnot c).2
    simp only [hleaving, hentering, (hnot _).1, (hnot _).2]
    exact ⟨trivial, trivial⟩

theorem ReadersOk.step {s' : State P} {mover : Fin P.numRequests} (h : ReadersOk f s)
    (hexcl : ReadExclusive f s) (hstep : step s mover = some s') : ReadersOk f s' := by
  obtain ⟨e, he, hfiles, hthreads⟩ := step_eq_some hstep
  have hcounted := countAt_update (f := f) Pc.counted hthreads
  have hholds := countAt_update (f := f) Pc.holdsDelete hthreads
  by_cases hf : fileOf mover = f
  · subst hf
    have hfile : s'.files (fileOf mover) = e.file := by rw [hfiles, update_self]
    have hmover : s'.threads mover = e.thread := by rw [hthreads, update_self]
    have hother : ∀ u, u ≠ mover → s'.threads u = s.threads u := fun u hu => by rw [hthreads, update_of_ne hu]
    obtain ⟨hcount, hstored, hfirst, hkeep⟩ := threadStep_readCount he (h.stored mover rfl)
    have hnonneg : 0 ≤ (s.files (fileOf mover)).readCount := by
      rw [h.readCount_eq]
      exact Int.natCast_nonneg _
    have hpos : (s.threads mover).pc.counted = true → 1 ≤ (s.files (fileOf mover)).readCount := by
      intro hc
      have := one_le_countAt Pc.counted (f := fileOf mover) rfl hc
      rw [h.readCount_eq]
      exact_mod_cast this
    have htokens := threadStep_tokens he (h.stored mover rfl) hnonneg hpos
    have hleaving := countAt_update (f := fileOf mover) (Pc.leaving e.file.readCount) hthreads
    have hentering := countAt_update (f := fileOf mover) (Pc.entering e.file.readCount) hthreads
    simp only [if_true] at hcounted hholds hleaving hentering
    have hrest := hexcl.rest_eq rfl hkeep
    refine ⟨?_, ?_, ?_, ?_⟩
    · have := h.readCount_eq
      rw [hfile]
      omega
    · intro t ht
      rw [hfile]
      by_cases htm : t = mover
      · rw [htm, hmover]
        exact hstored
      · rw [hother t htm]
        rcases hkeep with hsame | ⟨hsection, _⟩
        · rw [hsame]
          exact h.stored t ht
        · exact Pc.stored_of_not_inReadSection (fun hp => htm (hexcl.eq ht rfl hp hsection))
    · intro t ht
      rw [hfile]
      by_cases htm : t = mover
      · rw [htm, hmover]
        exact hfirst
      · rw [hother t htm]
        rcases hkeep with hsame | ⟨hsection, _⟩
        · rw [hsame]
          exact h.first t ht
        · intro hp
          exact absurd (hexcl.eq ht rfl (by rw [hp]; rfl) hsection) htm
    · have htotal := h.tokens_eq
      rw [hfile]
      simp only [tokens] at htokens
      omega
  · have hfile : s'.files f = s.files f := by rw [hfiles, update_of_ne (Ne.symm hf)]
    have hsame : ∀ u, fileOf u = f → s'.threads u = s.threads u := by
      intro u hu
      rw [hthreads, update_of_ne]
      rintro rfl
      exact hf hu
    have hleaving := countAt_update (f := f) (Pc.leaving (s.files f).readCount) hthreads
    have hentering := countAt_update (f := f) (Pc.entering (s.files f).readCount) hthreads
    simp only [if_neg hf, Nat.add_zero] at hcounted hholds hleaving hentering
    refine ⟨?_, ?_, ?_, ?_⟩
    · rw [hfile, hcounted]
      exact h.readCount_eq
    · intro t ht
      rw [hfile, hsame t ht]
      exact h.stored t ht
    · intro t ht
      rw [hfile, hsame t ht]
      exact h.first t ht
    · rw [hfile, hholds, hleaving, hentering]
      exact h.tokens_eq

/-! ### Files whose readers are counted right -/

def ReadsGuarded (P : Params) (f : Fin P.numFiles) : Prop :=
  P.maxConcurrent = 1 ∨ P.patienceTime ≤ 1 ∨ requestCount P f .read ≤ 1

theorem Pc.holdsLock_of_inReadSection (h : pc.inReadSection = true) : pc.holdsLock = true := by
  cases pc <;> first | rfl | cases h

theorem Pc.operation_of_inReadSection (h : pc.inReadSection = true) : pc.operation = some .read := by
  cases pc <;> first | rfl | cases h

theorem Reachable.readExclusive (hguard : ReadsGuarded P f) (hs : Reachable P s) :
    ReadExclusive f s := by
  rcases hguard with hone | hpatience | hreads
  · have hlock := hs.lock_conserved f
    have hle : countAt f Pc.inReadSection s ≤ countAt f Pc.holdsLock s :=
      countAt_mono fun _ _ hp => Pc.holdsLock_of_inReadSection hp
    unfold ReadExclusive
    omega
  · have hzero : countAt f Pc.inReadSection s = 0 := countAt_eq_zero fun t _ => by
      by_contra hp
      rw [Bool.not_eq_false] at hp
      have hnone := hs.operation_eq_none hpatience t
      rw [Pc.operation_of_inReadSection hp] at hnone
      cases hnone
    unfold ReadExclusive
    omega
  · exact (hs.countAt_le_requestCount f Pc.inReadSection fun _ hp => Pc.operation_of_inReadSection hp).trans hreads

theorem Reachable.readersOk (hguard : ReadsGuarded P f) (hs : Reachable P s) :
    ReadersOk f s := by
  refine Transition.Reachable.invariant (I := ReadersOk f) ?_ ?_ hs
  · rintro s rfl
    exact readersOk_initial f
  · rintro s s' hreach hok ⟨mover, hmove⟩
    exact hok.step (Reachable.readExclusive hguard hreach) hmove

end AdvancedXv6.FileManager
