import AdvancedXv6.FileManager.Exclusion

/-!
# Writers and deleters

Whatever `lock` and `delete_lock` do, `write_lock` is a mutex: a WRITE holds it from before its test of `is_deleted` to the end of its access, and a DELETE sets `is_deleted` while it holds it. So accesses that change a file come one after the other, and what a writer or deleter has read in `is_deleted` stays true until it lets go.

To speak of what has been taken up over a whole run, the threads leave a record of the lines they print.
-/

namespace AdvancedXv6.FileManager

open Function

variable {P : Params}

/-! ### Runs with a record -/

structure Traced (P : Params) where
  state : State P
  record : List (Fin P.numRequests × Message)

def Traced.next (c : Traced P) (t : Fin P.numRequests) : Option (Traced P) :=
  (threadStep P (P.requests t) (c.state.threads t) (c.state.files (fileOf t))).bind fun e =>
    (step c.state t).map fun s => { state := s, record := c.record ++ e.printed.map (Prod.mk t) }

def Traced.Reachable (c : Traced P) : Prop :=
  Transition.Reachable (· = ⟨initial P, []⟩) (Transition.StepOf Traced.next) c

variable {c : Traced P} {t u : Fin P.numRequests} {pc : Pc} {s : State P} {r : Request P.numFiles} {th : Thread} {file : File} {e : Effect}

theorem Traced.next_eq_some {c' : Traced P} (h : c.next t = some c') :
    ∃ e, threadStep P (P.requests t) (c.state.threads t) (c.state.files (fileOf t)) = some e ∧ step c.state t = some c'.state ∧
      c'.record = c.record ++ e.printed.map (Prod.mk t) := by
  unfold Traced.next at h
  rw [Option.bind_eq_some_iff] at h
  obtain ⟨e, he, hmap⟩ := h
  rw [Option.map_eq_some_iff] at hmap
  obtain ⟨s, hs, rfl⟩ := hmap
  exact ⟨e, he, hs, rfl⟩

theorem Traced.Reachable.state (h : c.Reachable) : FileManager.Reachable P c.state := by
  refine Transition.Reachable.invariant (I := fun c : Traced P => FileManager.Reachable P c.state) ?_ ?_ h
  · rintro c rfl
    exact Transition.Reachable.of_init rfl
  · rintro c c' _ hc ⟨t, ht⟩
    obtain ⟨_, _, hstep, _⟩ := Traced.next_eq_some ht
    exact hc.tail ⟨t, hstep⟩

/-! ### The parts of a WRITE and of a DELETE -/

def Pc.accessing : Pc → Bool
  | .writePostLock | .writePrintTaken | .writeSleep | .writePrintCompleted | .writePostWrite
  | .deleteSetDeleted | .deletePostLock | .deletePrintTaken | .deleteSleep | .deletePrintCompleted | .deletePostWrite => true
  | _ => false

def Pc.cleared : Pc → Bool
  | .writePostLock | .writePrintTaken | .writeSleep | .writePrintCompleted | .writePostWrite | .deleteSetDeleted => true
  | _ => false

def Pc.takingDelete : Pc → Bool
  | .deletePostLock | .deletePrintTaken => true
  | _ => false

theorem Pc.holdsWrite_of_accessing (h : pc.accessing = true) : pc.holdsWrite = true := by
  cases pc <;> first | rfl | cases h

theorem Pc.holdsWrite_of_cleared (h : pc.cleared = true) : pc.holdsWrite = true := by
  cases pc <;> first | rfl | cases h

theorem Reachable.eq_of_holdsWrite (hs : Reachable P s) (hfile : fileOf t = fileOf u)
    (ht : (s.threads t).pc.holdsWrite = true) (hu : (s.threads u).pc.holdsWrite = true) : t = u := by
  by_contra hne
  have htwo := two_le_countAt Pc.holdsWrite hne hfile rfl ht hu
  have hlock := hs.writeLock_conserved (fileOf u)
  omega

/-! ### What was read in `is_deleted` stays true -/

theorem threadStep_cleared (h : threadStep P r th file = some e)
    (hcleared : e.thread.pc.cleared = true) : th.pc ≠ .deleteSetDeleted ∧ (th.pc.cleared = true ∨ file.isDeleted = false) := by
  obtain ⟨pc, waitTime⟩ := th
  cases pc <;> simp only [threadStep, Option.bind_eq_some_iff, Option.some.injEq, reduceCtorEq] at h
  case whileTest =>
    split at h <;> cases h
    · cases hop : r.operation <;> rw [hop] at hcleared <;> cases hcleared
    · cases hcleared
  case readWaitLock | readWaitDelete | readWaitLockAgain | writeWaitWrite | writeWaitLock | deleteWaitWrite | deleteWaitLock =>
    obtain ⟨_, _, rfl⟩ := h
    cases hcleared
  case readTestDeleted | readTestFirst | readTestLast | writeTestDeleted | deleteTestDeleted | deleteTryDelete | afterLoop =>
    split at h <;> cases h <;> simp_all [Pc.cleared]
  all_goals
    cases h
    first | cases hcleared; done | exact ⟨(by simp), .inl rfl⟩

theorem Reachable.not_deleted_of_cleared (hs : Reachable P s) (t : Fin P.numRequests)
    (hcleared : (s.threads t).pc.cleared = true) : (s.files (fileOf t)).isDeleted = false := by
  refine Reachable.not_deleted_of Pc.cleared threadStep_cleared (fun hreach hne hf hcleared hset => ?_) hs t hcleared
  exact hne (hreach.eq_of_holdsWrite hf (Pc.holdsWrite_of_cleared hcleared) (by rw [hset]; rfl))

/-! ### One DELETE for each file -/

def takesDelete (f : Fin P.numFiles) : Fin P.numRequests × Message → Bool
  | (t, .taken _ _) => fileOf t = f && (P.requests t).operation = .delete
  | _ => false

def Message.isOutcome : Message → Bool
  | .declined _ _ | .completed _ _ | .canceled _ _ => true
  | _ => false

def Traced.deletesTaken (c : Traced P) (f : Fin P.numFiles) : ℕ := c.record.countP (takesDelete f)

def Traced.outcomes (c : Traced P) (t : Fin P.numRequests) : ℕ := c.record.countP fun entry => entry.1 = t && entry.2.isOutcome

/-- The flag is set by the step that makes the thread a taker, and a taker becomes a line in the record. -/
theorem threadStep_takes (h : threadStep P (P.requests t) th file = some e)
    (hpatient : Patient P (P.requests t) th) (hcleared : th.pc = .deleteSetDeleted → file.isDeleted = false) :
    e.file.isDeleted.toNat + th.pc.takingDelete.toNat =
      file.isDeleted.toNat + e.thread.pc.takingDelete.toNat + (e.printed.map (Prod.mk t)).countP (takesDelete (fileOf t)) := by
  obtain ⟨_, hoperation, _⟩ := hpatient
  obtain ⟨pc, waitTime⟩ := th
  cases pc <;> simp only [threadStep, Option.bind_eq_some_iff, Option.some.injEq, reduceCtorEq] at h
  case whileTest =>
    split at h <;> cases h
    · cases (P.requests t).operation <;> rfl
    · rfl
  case readWaitLock | readWaitDelete | readWaitLockAgain | writeWaitWrite | writeWaitLock | deleteWaitWrite | deleteWaitLock =>
    obtain ⟨_, _, rfl⟩ := h
    rfl
  case readTestDeleted | readTestFirst | readTestLast | writeTestDeleted | deleteTestDeleted | deleteTryDelete | afterLoop =>
    split at h <;> cases h <;> rfl
  case deleteSetDeleted =>
    cases h
    simp [hcleared rfl, Pc.takingDelete]
  case readPrintTaken | writePrintTaken | deletePrintTaken =>
    cases h
    have hop := hoperation _ rfl
    simp [takesDelete, hop, Pc.takingDelete]
  all_goals
    cases h
    rfl

theorem countP_takesDelete_of_ne {f : Fin P.numFiles} (hf : fileOf t ≠ f) (printed : List Message) :
    (printed.map (Prod.mk t)).countP (takesDelete f) = 0 := by
  rw [List.countP_eq_zero]
  intro entry hentry
  obtain ⟨message, _, rfl⟩ := List.mem_map.mp hentry
  cases message <;> simp [takesDelete, hf]

/-- A deleted file has had one DELETE taken up, or about to be. -/
theorem Traced.Reachable.deletes_eq (h : c.Reachable) (f : Fin P.numFiles) :
    (c.state.files f).isDeleted.toNat = c.deletesTaken f + countAt f Pc.takingDelete c.state := by
  refine Transition.Reachable.invariant
    (I := fun c : Traced P => (c.state.files f).isDeleted.toNat = c.deletesTaken f + countAt f Pc.takingDelete c.state) ?_ ?_ h
  · rintro c rfl
    have hzero : countAt f Pc.takingDelete (initial P) = 0 := countAt_eq_zero fun _ _ => rfl
    rw [hzero]
    rfl
  · rintro c c' hreach hc ⟨t, ht⟩
    obtain ⟨e, he, hstep, hrecord⟩ := Traced.next_eq_some ht
    obtain ⟨e', he', hfiles, hthreads⟩ := step_eq_some hstep
    rw [he, Option.some.injEq] at he'
    subst he'
    have hstate := Traced.Reachable.state hreach
    have hcount := countAt_update (f := f) Pc.takingDelete hthreads
    have htaken : c'.deletesTaken f = c.deletesTaken f + (e.printed.map (Prod.mk t)).countP (takesDelete f) := by
      rw [Traced.deletesTaken, hrecord, List.countP_append]
      rfl
    rw [hfiles, htaken]
    by_cases hf : fileOf t = f
    · subst hf
      have htakes := threadStep_takes he (hstate.patient t) fun hpc => hstate.not_deleted_of_cleared t (by rw [hpc]; rfl)
      rw [if_pos rfl, if_pos rfl] at hcount
      rw [update_self]
      omega
    · rw [if_neg hf, if_neg hf] at hcount
      rw [update_of_ne (Ne.symm hf), countP_takesDelete_of_ne hf]
      omega

/-! ### One outcome for each request -/

/-- The thread has printed the line that ends its request. Behind the loop this is so if the loop was left by `break`. -/
def Thread.ended (P : Params) (th : Thread) : Bool :=
  match th.pc with
  | .readPostDeclined | .readWaitLockAgain | .readLoadCountAgain | .readStoreCountAgain _ | .readTestLast | .readPostDelete | .readPostLockAgain
  | .writePostLockDeclined | .writePostWriteDeclined | .writePostWrite
  | .deletePostLockDeclined | .deletePostWriteDeclined | .deletePostDeleteDeclined | .deletePostWrite | .deletePostDelete | .returned => true
  | .afterLoop => th.waitTime < P.patienceTime
  | _ => false

theorem threadStep_ended (h : threadStep P r th file = some e)
    (hpatient : Patient P r th) : (e.thread.ended P).toNat = (th.ended P).toNat + e.printed.countP Message.isOutcome := by
  obtain ⟨_, _, htime⟩ := hpatient
  obtain ⟨pc, waitTime⟩ := th
  cases pc <;> simp only [threadStep, Option.bind_eq_some_iff, Option.some.injEq, reduceCtorEq] at h
  case whileTest =>
    split at h <;> cases h
    · cases r.operation <;> rfl
    · rename_i hlt
      simp [Thread.ended, hlt]
  case readWaitLock | readWaitDelete | readWaitLockAgain | writeWaitWrite | writeWaitLock | deleteWaitWrite | deleteWaitLock =>
    obtain ⟨_, _, rfl⟩ := h
    rfl
  case readTestDeleted | readTestFirst | readTestLast | writeTestDeleted | deleteTestDeleted | deleteTryDelete =>
    split at h <;> cases h <;> rfl
  case readPostLockAgain | writePostWrite | deletePostDelete =>
    cases h
    have hlt := htime rfl
    simp only at hlt
    simp [Thread.ended, hlt]
  case afterLoop =>
    split at h <;> cases h
    · rename_i hle
      simp [Thread.ended, Message.isOutcome, hle]
    · rename_i hlt
      simp only [not_le] at hlt
      simp [Thread.ended, hlt]
  all_goals
    cases h
    rfl

theorem countP_outcome (printed : List Message) :
    (printed.map (Prod.mk u)).countP (fun entry => entry.1 = t && entry.2.isOutcome) = if u = t then printed.countP Message.isOutcome else 0 := by
  rw [List.countP_map]
  by_cases hut : u = t
  · rw [if_pos hut]
    congr 1
    funext message
    simp [hut]
  · rw [if_neg hut, List.countP_eq_zero]
    intro message _
    simp [hut]

theorem Traced.Reachable.outcomes_eq (h : c.Reachable) (t : Fin P.numRequests) :
    c.outcomes t = ((c.state.threads t).ended P).toNat := by
  refine Transition.Reachable.invariant (I := fun c : Traced P => c.outcomes t = ((c.state.threads t).ended P).toNat) ?_ ?_ h
  · rintro c rfl
    rfl
  · rintro c c' hreach hc ⟨mover, hmove⟩
    obtain ⟨e, he, hstep, hrecord⟩ := Traced.next_eq_some hmove
    obtain ⟨e', he', _, hthreads⟩ := step_eq_some hstep
    rw [he, Option.some.injEq] at he'
    subst he'
    have houtcomes : c'.outcomes t = c.outcomes t + if mover = t then e.printed.countP Message.isOutcome else 0 := by
      rw [Traced.outcomes, hrecord, List.countP_append, countP_outcome]
      rfl
    rw [houtcomes, hc, hthreads]
    by_cases ht : mover = t
    · subst ht
      rw [if_pos rfl, update_self, threadStep_ended he ((Traced.Reachable.state hreach).patient mover)]
    · rw [if_neg ht, update_of_ne (Ne.symm ht), Nat.add_zero]

/-! ### The guarantee -/

/-- The step of thread `t` takes its request up. -/
def TakesUp (s : State P) (t : Fin P.numRequests) : Prop :=
  ∃ e userId time, threadStep P (P.requests t) (s.threads t) (s.files (fileOf t)) = some e ∧ .taken userId time ∈ e.printed

/-- Accesses that change a file come one after the other, one DELETE at most is taken up, no WRITE is taken up on a deleted file, and a request that has returned has ended once. -/
structure Serialized (c : Traced P) : Prop where
  eq_of_accessing : ∀ t u, fileOf t = fileOf u → (c.state.threads t).pc.accessing = true → (c.state.threads u).pc.accessing = true → t = u
  deletesTaken_le_one : ∀ f, c.deletesTaken f ≤ 1
  write_not_deleted : ∀ t, TakesUp c.state t → (P.requests t).operation = .write → (c.state.files (fileOf t)).isDeleted = false
  outcomes_eq_one : ∀ t, (c.state.threads t).pc = .returned → c.outcomes t = 1

theorem pc_of_takesUp (h : TakesUp s t) :
    (s.threads t).pc = .readPrintTaken ∨ (s.threads t).pc = .writePrintTaken ∨ (s.threads t).pc = .deletePrintTaken := by
  obtain ⟨e, userId, time, he, hmem⟩ := h
  generalize s.threads t = th at he ⊢
  obtain ⟨pc, waitTime⟩ := th
  cases pc <;> simp only [threadStep, Option.bind_eq_some_iff, Option.some.injEq, reduceCtorEq] at he
  case readPrintTaken | writePrintTaken | deletePrintTaken => simp
  case readWaitLock | readWaitDelete | readWaitLockAgain | writeWaitWrite | writeWaitLock | deleteWaitWrite | deleteWaitLock =>
    obtain ⟨_, _, rfl⟩ := he
    cases hmem
  case whileTest | readTestDeleted | readTestFirst | readTestLast | writeTestDeleted | deleteTestDeleted | deleteTryDelete | afterLoop =>
    split at he <;> cases he <;> simp at hmem
  all_goals
    cases he
    simp at hmem

/-- Writers and deleters serialise on every interleaving, whatever `max_concurrent` is. -/
theorem writers_serialize {c : Traced P} (h : c.Reachable) : Serialized c where
  eq_of_accessing t u hfile ht hu := h.state.eq_of_holdsWrite hfile (Pc.holdsWrite_of_accessing ht) (Pc.holdsWrite_of_accessing hu)
  deletesTaken_le_one f := by
    have hdeletes := h.deletes_eq f
    have hle := Bool.toNat_le (c.state.files f).isDeleted
    omega
  write_not_deleted t htakes hwrite := by
    rcases pc_of_takesUp htakes with hpc | hpc | hpc
    · have hop := (h.state.patient t).operation_eq .read (by rw [hpc]; rfl)
      rw [hwrite] at hop
      cases hop
    · exact h.state.not_deleted_of_cleared t (by rw [hpc]; rfl)
    · have hop := (h.state.patient t).operation_eq .delete (by rw [hpc]; rfl)
      rw [hwrite] at hop
      cases hop
  outcomes_eq_one t hpc := by
    rw [h.outcomes_eq t, Thread.ended, hpc]
    rfl

/-- A run of one DELETE request from its start to its end. -/
theorem writers_serialize_sample : ∃ c : Traced (sampleInput 2 .delete), c.Reachable ∧ c.deletesTaken (0 : Fin 1) = 1 ∧ Serialized c := by
  obtain ⟨c, hreach, htaken⟩ : ∃ c : Traced (sampleInput 2 .delete), c.Reachable ∧
      c.deletesTaken (0 : Fin 1) = 1 :=
    Transition.exists_reachable_of_schedule rfl (List.replicate 16 (2 : Fin 3)) (by decide)
  exact ⟨c, hreach, htaken, writers_serialize hreach⟩

end AdvancedXv6.FileManager
